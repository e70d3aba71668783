import Mathlib.Tactic.IntervalCases
import NetSim.ByteStream
import NetSim.ManagerReplies
import NetSim.CStrings

/-! The commands of the manager as bytes in a pipe. Nothing says where a command ends, so a read
of the host takes everything that is in the pipe for one. -/
namespace CommandStream

open PacketCodec ByteStream CStrings HostNode ManagerReplies
open DnsServer (charSpace)
open EventRuns (Run)
open HostReplies (HostStep kept_init)
open HostWaits (AllGenuine hostStep_books newCommands)

/-- What get_man_command hands over: the command, and the string at `man_msg`. -/
def hand (bytes : List Int8) (stale : ℕ → Int8) : Int8 × List Int8 :=
  ((getManCommand bytes stale).1, manText (getManCommand bytes stale).2)

/-- The calls on a pipe: the manager writes a command, or reads a reply, and the host reads. -/
inductive Call where
  | write (r : Request)
  | reply
  | read

def bytesOf (r : Request) : List Int8 := (message r).getD []

/-- What get_man_command hands to host_main. Read i finds `mem i` in `man_msg`. -/
def handed : List Int8 → (ℕ → ℕ → Int8) → List Call → List (Int8 × List Int8)
  | _, _, [] => []
  | pipe, mem, .write r :: calls => handed (pipe ++ bytesOf r) mem calls
  | pipe, mem, .reply :: calls => handed pipe mem calls
  | pipe, mem, .read :: calls =>
    (if pipe.take manMsgLength = [] then [] else [hand (pipe.take manMsgLength) (mem 0)]) ++
      handed (pipe.drop manMsgLength) (fun i => mem (i + 1)) calls

def written : List Call → List Request
  | [] => []
  | .write r :: calls => r :: written calls
  | .reply :: calls => written calls
  | .read :: calls => written calls

def unread : List Int8 → List Call → List Int8
  | pipe, [] => pipe
  | pipe, .write r :: calls => unread (pipe ++ bytesOf r) calls
  | pipe, .reply :: calls => unread pipe calls
  | pipe, .read :: calls => unread (pipe.drop manMsgLength) calls

/-- The manager's own code: after a request with a reply it writes nothing until it has read
one. -/
def OwnCode : Bool → List Call → Prop
  | _, [] => True
  | waiting, .write r :: calls => waiting = false ∧ OwnCode (readsReply r) calls
  | waiting, .reply :: calls => waiting = true ∧ OwnCode false calls
  | waiting, .read :: calls => OwnCode waiting calls

def Word (name : List Int8) : Prop := name ≠ [] ∧ ∀ b ∈ name, b ≠ 0 ∧ isSpace b = false

/-- The names of a request are words, and its message fits the array it is printed to. -/
def Typed (r : Request) : Prop :=
  (message r).isSome ∧
    match r with
    | .displayHostState | .ping _ => True
    | .setHostDir name | .fileUpload _ name | .fileDownload _ name => Word name
    | .dnsRegister domainName | .dnsLookup domainName | .dnsPing domainName => Word domainName
    | .dnsFileDownload domainName fileName => Word domainName ∧ Word fileName

def spelled (r : Request) : Int8 × List Int8 := (letterByte r, argument r)

theorem skipBlanks_eq {msg : ℕ → Int8} {l : List Int8} {i : ℕ}
    (h : ∀ k (hk : k < l.length), msg (i + k) = l[k]) :
    skipBlanks msg l.length i = i + (l.takeWhile (· = charSpace)).length := by
  induction l generalizing i with
  | nil => rfl
  | cons a l ih =>
    have ha : msg i = a := h 0 (Nat.zero_lt_succ _)
    rw [List.length_cons, skipBlanks, ha]
    by_cases hblank : a = charSpace
    · rw [if_pos hblank, List.takeWhile_cons_of_pos (by simpa using hblank), List.length_cons, ih]
      · omega
      · intro k hk
        have := h (k + 1) (by simpa using hk)
        rwa [List.getElem_cons_succ, ← Nat.add_assoc, Nat.add_right_comm] at this
    · rw [if_neg hblank, List.takeWhile_cons_of_neg (by simpa using hblank)]
      rfl

/-- The shift reads ahead of where it writes, so it moves what was there before. -/
theorem shiftDown_apply {i : ℕ} (hi : 0 < i) (fuel k : ℕ) (msg : ℕ → Int8) (x : ℕ) :
    shiftDown i fuel k msg x =
      if k ≤ x ∧ x < k + fuel then msg (x + i) else if x = k + fuel then 0 else msg x := by
  induction fuel generalizing k msg with
  | zero =>
    rw [shiftDown, Function.update_apply]
    by_cases hx : x = k
    · simp [hx]
    · rw [if_neg hx, if_neg (by omega), if_neg (by omega)]
  | succ fuel ih =>
    rw [shiftDown, ih]
    by_cases hx : x = k
    · subst hx
      rw [if_neg (by omega), if_neg (by omega), Function.update_self, if_pos (by omega)]
    · have hsame : Function.update msg k (msg (k + i)) x = msg x := Function.update_of_ne hx _ _
      have hahead : k ≤ x → Function.update msg k (msg (k + i)) (x + i) = msg (x + i) :=
        fun hle => Function.update_of_ne (by omega) _ _
      by_cases hin : k + 1 ≤ x ∧ x < k + 1 + fuel
      · rw [if_pos hin, if_pos (by omega), hahead (by omega)]
      · have hnot : ¬ (k ≤ x ∧ x < k + (fuel + 1)) := by omega
        have hend : x = k + 1 + fuel ↔ x = k + (fuel + 1) := by omega
        rw [if_neg hin, if_neg hnot, hsame]
        simp only [hend]

theorem text_append_zero (l rest : List Int8) : text (l ++ 0 :: rest) = text l := by
  induction l with
  | nil => simp [text]
  | cons a l ih =>
    by_cases ha : a = 0
    · simp [ha]
    · rw [List.cons_append, text_cons ha, text_cons ha, ih]

theorem manText_eq {msg : ℕ → Int8} {l : List Int8} (hl : l.length < manMsgLength)
    (h : ∀ k (hk : k < l.length), msg k = l[k]) (hz : msg l.length = 0) : manText msg = text l := by
  have htake : ((List.range manMsgLength).map msg).take l.length = l := by
    apply List.ext_getElem
    · simp only [List.length_take, List.length_map, List.length_range]
      omega
    · intro k hk hk'
      simp [h k hk']
  have hdrop : ((List.range manMsgLength).map msg).drop l.length =
      0 :: ((List.range manMsgLength).map msg).drop (l.length + 1) := by
    rw [List.drop_eq_getElem_cons (by simpa using hl)]
    simp [hz]
  rw [manText, ← List.take_append_drop l.length ((List.range manMsgLength).map msg), htake, hdrop,
    text_append_zero]

theorem drop_takeWhile (p : Int8 → Bool) (l : List Int8) :
    l.drop (l.takeWhile p).length = l.dropWhile p := by
  induction l with
  | nil => rfl
  | cons a l ih =>
    by_cases ha : p a = true
    · rw [List.takeWhile_cons_of_pos ha, List.dropWhile_cons_of_pos ha, List.length_cons,
        List.drop_succ_cons, ih]
    · rw [List.takeWhile_cons_of_neg ha, List.dropWhile_cons_of_neg ha]
      rfl

theorem hand_cons {c : Int8} (hc : c ≠ charSpace) {tail : List Int8}
    (hl : tail.length < manMsgLength) (stale : ℕ → Int8) :
    hand (c :: tail) stale = (c, text (tail.dropWhile (· = charSpace))) := by
  have hmsg : ∀ k (hk : k < tail.length), overlay (c :: tail) stale (1 + k) = tail[k] := by
    intro k hk
    rw [overlay, Nat.add_comm, List.getD_cons_succ, List.getD_eq_getElem _ _ hk]
  have hfirst : skipBlanks (overlay (c :: tail) stale) (tail.length + 1) 0 = 0 := by
    rw [skipBlanks, if_neg]
    exact hc
  have hblanks : skipBlanks (overlay (c :: tail) stale) tail.length 1 =
      1 + (tail.takeWhile (· = charSpace)).length := skipBlanks_eq hmsg
  have hsplit := congrArg List.length (List.takeWhile_append_dropWhile (p := (· = charSpace))
    (l := tail))
  rw [List.length_append] at hsplit
  have hdrop := drop_takeWhile (· = charSpace) tail
  rw [hand, getManCommand_head hc, Prod.mk.injEq]
  refine ⟨rfl, ?_⟩
  rw [getManCommand]
  simp only [List.length_cons, hfirst, Nat.zero_add, Nat.add_sub_cancel, hblanks]
  apply manText_eq
  · omega
  · intro k hk
    have hplace : k + (1 + (tail.takeWhile (· = charSpace)).length) =
        1 + ((tail.takeWhile (· = charSpace)).length + k) := by omega
    rw [shiftDown_apply (by omega), if_pos (by omega), hplace, hmsg _ (by omega)]
    simp only [← hdrop, List.getElem_drop]
  · rw [shiftDown_apply (by omega), if_neg (by omega), if_pos (by omega)]

theorem digit_byte {c : Char} (h : c.isDigit = true ∨ c = '-') :
    Int8.ofInt c.toNat ≠ 0 ∧ isSpace (Int8.ofInt c.toNat) = false := by
  rcases h with h | rfl
  · simp only [Char.isDigit, Bool.and_eq_true, decide_eq_true_eq] at h
    obtain ⟨hlow, hhigh⟩ : 48 ≤ c.toNat ∧ c.toNat ≤ 57 := h
    generalize c.toNat = n at hlow hhigh
    interval_cases n <;> decide
  · decide

theorem repr_digit {n : ℕ} {c : Char} (h : c ∈ (Nat.repr n).toList) : c.isDigit = true := by
  rw [Nat.toList_repr] at h
  exact Nat.isDigit_of_mem_toDigits (by decide) (by decide) h

theorem word_toString (z : ℤ) : Word (toBytes (toString z)) := by
  have hword : ∀ string : String, string.toList ≠ [] →
      (∀ c ∈ string.toList, c.isDigit = true ∨ c = '-') → Word (toBytes string) := by
    intro string hne hdigits
    refine ⟨by simpa [toBytes] using hne, ?_⟩
    intro b hb
    obtain ⟨c, hc, rfl⟩ := List.mem_map.mp hb
    exact digit_byte (hdigits c hc)
  cases z with
  | ofNat n =>
    apply hword (Nat.repr n)
    · rw [Nat.toList_repr]
      exact Nat.toDigits_ne_nil
    · exact fun c hc => .inl (repr_digit hc)
  | negSucc n =>
    apply hword ("-" ++ Nat.repr (n + 1))
    · rw [String.toList_append]
      simp
    · intro c hc
      rw [String.toList_append, List.mem_append] at hc
      rcases hc with hc | hc
      · exact .inr (by simpa using hc)
      · exact .inl (repr_digit hc)

theorem Word.no_zero {name : List Int8} (h : Word name) : 0 ∉ name := fun h0 => (h.2 0 h0).1 rfl

theorem Word.dropWhile {name : List Int8} (h : Word name) (rest : List Int8) :
    (name ++ rest).dropWhile (· = charSpace) = name ++ rest := by
  obtain ⟨hne, hall⟩ := h
  cases name with
  | nil => exact absurd rfl hne
  | cons b name =>
    have hb : b ≠ charSpace := by
      rintro rfl
      exact absurd (hall charSpace List.mem_cons_self).2 (by decide)
    rw [List.cons_append, List.dropWhile_cons_of_neg (by simpa using hb)]

theorem words_spec {a b : List Int8} (ha : Word a) (hb : Word b) :
    0 ∉ a ++ toBytes " " ++ b ∧
      (a ++ toBytes " " ++ b).dropWhile (· = charSpace) = a ++ toBytes " " ++ b := by
  constructor
  · have hblank : (0 : Int8) ∉ toBytes " " := by decide
    simp [ha.no_zero, hb.no_zero, hblank]
  · rw [List.append_assoc]
    exact ha.dropWhile _

theorem argument_spec {r : Request} (h : Typed r) :
    0 ∉ argument r ∧ (argument r).dropWhile (· = charSpace) = argument r := by
  have hone : ∀ {name}, Word name →
      0 ∉ name ∧ name.dropWhile (· = charSpace) = name := by
    intro name hname
    have hdrop := hname.dropWhile []
    rw [List.append_nil] at hdrop
    exact ⟨hname.no_zero, hdrop⟩
  obtain ⟨-, hwords⟩ := h
  cases r with
  | displayHostState => exact ⟨List.not_mem_nil, rfl⟩
  | setHostDir name => exact hone hwords
  | ping hostToPing => exact hone (word_toString hostToPing)
  | fileUpload hostId name => exact words_spec (word_toString hostId) hwords
  | fileDownload hostId name => exact words_spec (word_toString hostId) hwords
  | dnsRegister domainName => exact hone hwords
  | dnsLookup domainName => exact hone hwords
  | dnsPing domainName => exact hone hwords
  | dnsFileDownload domainName fileName => exact words_spec hwords.1 hwords.2

theorem Typed.spells {r : Request} (h : Typed r) : ∃ tail, Spells (bytesOf r) r tail := by
  obtain ⟨bytes, hbytes⟩ := Option.isSome_iff_exists.mp h.1
  rw [bytesOf, hbytes]
  exact message_spells hbytes

theorem hand_bytesOf {r : Request} (h : Typed r) (stale : ℕ → Int8) :
    hand (bytesOf r) stale = spelled r := by
  obtain ⟨tail, hwhole, hfits, hbehind⟩ := h.spells
  obtain ⟨hzero, hdrop⟩ := argument_spec h
  rw [hwhole, List.length_cons] at hfits
  rw [hwhole, hand_cons (letterByte_ne r).1 (by omega), spelled]
  rcases hbehind with ⟨rfl, harg⟩ | rfl
  · rw [harg]
    rfl
  · rw [List.dropWhile_cons_of_pos (by simp), hdrop, text_of_not_mem hzero]

theorem hand_merged {r : Request} (h : Typed r) {c : Int8} (hc : c ≠ charSpace ∧ c ≠ 0)
    (rest : List Int8) (hl : (bytesOf r ++ c :: rest).length ≤ manMsgLength) (stale : ℕ → Int8) :
    hand (bytesOf r ++ c :: rest) stale ≠ spelled r := by
  obtain ⟨tail, hwhole, -, hbehind⟩ := h.spells
  obtain ⟨hzero, hdrop⟩ := argument_spec h
  rw [hwhole, List.cons_append, List.length_cons] at hl
  rw [hwhole, List.cons_append, hand_cons (letterByte_ne r).1 (by omega), spelled]
  have hnext : (c :: rest).dropWhile (· = charSpace) = c :: rest :=
    List.dropWhile_cons_of_neg (by simpa using hc.1)
  have hall : (tail ++ c :: rest).dropWhile (· = charSpace) = argument r ++ c :: rest := by
    rcases hbehind with ⟨rfl, harg⟩ | rfl
    · rw [harg]
      exact hnext
    · rw [List.cons_append, List.dropWhile_cons_of_pos (by simp), List.dropWhile_append, hdrop]
      split_ifs with hempty
      · rw [hnext, List.isEmpty_iff.mp hempty, List.nil_append]
      · rfl
  intro heq
  have hargument : text (argument r ++ c :: rest) = argument r := by
    rw [← hall]
    exact congrArg Prod.snd heq
  rw [text_append hzero, text_cons hc.2] at hargument
  simp at hargument

/-- Whenever the host reads, at most one command is in the pipe. -/
def ReadsAlone : List Request → List Call → Prop
  | _, [] => True
  | q, .write r :: calls => ReadsAlone (q ++ [r]) calls
  | q, .reply :: calls => ReadsAlone q calls
  | [], .read :: calls => ReadsAlone [] calls
  | _ :: q, .read :: calls => q = [] ∧ ReadsAlone q calls

/-- What was handed over, and then what is still in the pipe, is what was written. -/
def OneByOne (mem : ℕ → ℕ → Int8) (calls : List Call) : Prop :=
  ∃ q : List Request, unread [] calls = (q.map bytesOf).flatten ∧
    handed [] mem calls ++ q.map spelled = (written calls).map spelled

def ops : List Call → List (Op Int8)
  | [] => []
  | .write r :: calls => .write (bytesOf r) :: ops calls
  | .reply :: calls => ops calls
  | .read :: calls => .read :: ops calls

theorem writes_ops (calls : List Call) : writes (ops calls) = (written calls).map bytesOf := by
  induction calls with
  | nil => rfl
  | cons c calls ih => cases c <;> simp [ops, writes, written, ih]

theorem rest_ops (calls : List Call) (pipe : List Int8) :
    rest manMsgLength pipe (ops calls) = unread pipe calls := by
  induction calls generalizing pipe with
  | nil => rfl
  | cons c calls ih =>
    cases c with
    | write r => exact ih _
    | reply => exact ih _
    | read => exact ih _

theorem bytesOf_ok {r : Request} (h : Typed r) :
    bytesOf r ≠ [] ∧ (bytesOf r).length < manMsgLength := by
  obtain ⟨tail, hwhole, hfits, -⟩ := h.spells
  exact ⟨by simp [hwhole], hfits⟩

theorem aligned_ops (calls : List Call) (q : List Request)
    (ht : ∀ r ∈ q ++ written calls, Typed r) :
    Aligned manMsgLength (q.map bytesOf) (ops calls) ↔ ReadsAlone q calls := by
  induction calls generalizing q with
  | nil => exact Iff.rfl
  | cons c calls ih =>
    cases c with
    | write r =>
      have := ih (q ++ [r]) (by simpa [written] using ht)
      rwa [List.map_append] at this
    | reply => exact ih q ht
    | read =>
      cases q with
      | nil => exact ih [] ht
      | cons r q =>
        have hshort := (bytesOf_ok (ht r (by simp))).2
        have hq := ih q fun x hx => ht x (by rw [List.cons_append]; exact List.mem_cons_of_mem _ hx)
        simp only [List.map_cons, ops, Aligned, ReadsAlone, hq, List.map_eq_nil_iff,
          or_iff_left hshort.ne]

theorem handed_pieces (calls : List Call) (pipe : List Int8) (mem : ℕ → ℕ → Int8) :
    List.Forall₂ (fun c h => ∃ stale, hand c stale = h) (pieces manMsgLength pipe (ops calls))
      (handed pipe mem calls) := by
  induction calls generalizing pipe mem with
  | nil => exact .nil
  | cons c calls ih =>
    cases c with
    | write r => exact ih _ mem
    | reply => exact ih pipe mem
    | read =>
      rw [ops, handed]
      by_cases he : pipe.take manMsgLength = []
      · have hp : pipe = [] := (List.take_eq_nil_iff.mp he).resolve_left (by decide)
        subst hp
        rw [pieces_read_nil, if_pos he]
        exact ih [] _
      · rw [pieces_read he, if_neg he]
        exact .cons ⟨mem 0, rfl⟩ (ih _ _)

theorem oneByOne_of_alone {calls : List Call} (ht : ∀ r ∈ written calls, Typed r)
    (h : ReadsAlone [] calls) (mem : ℕ → ℕ → Int8) : OneByOne mem calls := by
  have hok : ∀ m ∈ [] ++ writes (ops calls), m ≠ [] ∧ m.length ≤ manMsgLength := by
    intro m hm
    rw [List.nil_append, writes_ops] at hm
    obtain ⟨r, hr, rfl⟩ := List.mem_map.mp hm
    obtain ⟨hne, hshort⟩ := bytesOf_ok (ht r hr)
    exact ⟨hne, hshort.le⟩
  obtain ⟨k, hrest, hpieces⟩ :=
    pieces_waiting (ops calls) [] hok ((aligned_ops calls [] ht).mpr h)
  rw [List.nil_append, writes_ops, eq_comm, List.map_eq_append_iff] at hpieces
  obtain ⟨done, q, hsplit, hdone, rfl⟩ := hpieces
  refine ⟨q, (rest_ops calls []).symm.trans hrest, ?_⟩
  have hhanded := handed_pieces calls [] mem
  rw [List.flatten_nil] at hdone
  rw [← hdone, List.forall₂_map_left_iff] at hhanded
  have hsame : done.map spelled = handed [] mem calls := by
    rw [← List.forall₂_eq_eq_eq, List.forall₂_map_left_iff]
    refine ((List.forall₂_and_left _ _).mpr ⟨?_, hhanded⟩).imp
      (R := fun r p => Typed r ∧ ∃ stale, hand (bytesOf r) stale = p) ?_
    · exact fun r hr => ht r (by rw [hsplit]; exact List.mem_append_left _ hr)
    · rintro r p ⟨hr, stale, rfl⟩
      exact (hand_bytesOf hr stale).symm
  rw [← hsame, hsplit, List.map_append]

def IsMessage (m : List Int8) : Prop := ∃ r, Typed r ∧ m = bytesOf r

theorem read_alone {r : Request} {q : List (List Int8)} (hr : Typed r)
    (hq : ∀ x ∈ q, IsMessage x) {stale : ℕ → Int8}
    (h : hand ((bytesOf r :: q).flatten.take manMsgLength) stale = spelled r) : q = [] := by
  cases q with
  | nil => rfl
  | cons x q =>
    obtain ⟨r', hr', rfl⟩ := hq x List.mem_cons_self
    obtain ⟨tail, hwhole, -⟩ := hr'.spells
    have hshort := (bytesOf_ok hr).2
    obtain ⟨room, hroom⟩ : ∃ room, manMsgLength - (bytesOf r).length = room + 1 :=
      ⟨manMsgLength - (bytesOf r).length - 1, by omega⟩
    have hbytes : (bytesOf r :: bytesOf r' :: q).flatten.take manMsgLength =
        bytesOf r ++ letterByte r' :: (tail ++ q.flatten).take room := by
      rw [List.flatten_cons, List.flatten_cons, List.take_append, List.take_of_length_le hshort.le,
        hroom, hwhole, List.cons_append, List.take_succ_cons]
    have hl : (bytesOf r ++ letterByte r' :: (tail ++ q.flatten).take room).length ≤
        manMsgLength := by
      rw [← hbytes, List.length_take]
      exact Nat.min_le_left _ _
    rw [hbytes] at h
    exact absurd h (hand_merged hr (letterByte_ne r') _ hl stale)

theorem alone_of_oneByOne {calls : List Call} (ht : ∀ r ∈ written calls, Typed r)
    {mem : ℕ → ℕ → Int8} (h : OneByOne mem calls) : ReadsAlone [] calls := by
  obtain ⟨q, -, hall⟩ := h
  rw [eq_comm, List.map_eq_append_iff] at hall
  obtain ⟨done, left, hsplit, hdone, -⟩ := hall
  rw [← aligned_ops calls [] ht]
  refine aligned_of_pieces (P := IsMessage)
    (R := fun m c => ∃ r, (Typed r ∧ ∃ stale, hand c stale = spelled r) ∧ m = bytesOf r)
    ?_ ?_ (ops calls) [] (done.map bytesOf) ?_ ?_ ?_
  · rintro m q - hq ⟨r, ⟨hr, stale, hhand⟩, rfl⟩
    exact Or.inl (read_alone hr hq hhand)
  · rintro m ⟨r, hr, rfl⟩
    obtain ⟨hne, hshort⟩ := bytesOf_ok hr
    exact ⟨hne, hshort.le⟩
  · intro m hm
    rw [List.nil_append, writes_ops] at hm
    obtain ⟨r, hr, rfl⟩ := List.mem_map.mp hm
    exact ⟨r, ht r hr, rfl⟩
  · rw [List.nil_append, writes_ops, hsplit, List.map_append]
    exact List.prefix_append _ _
  · have hhanded := handed_pieces calls [] mem
    rw [← hdone, List.forall₂_map_right_iff] at hhanded
    rw [List.flatten_nil, List.forall₂_map_left_iff]
    refine ((List.forall₂_and_left _ _).mpr ⟨?_, hhanded.flip⟩).imp
      (R := fun r c => Typed r ∧ ∃ stale, hand c stale = spelled r) ?_
    · exact fun r hr => ht r (by rw [hsplit]; exact List.mem_append_left _ hr)
    · exact fun r c hrc => ⟨r, hrc, rfl⟩

/-- At every moment the host has been handed the commands that were written, up to those still in
the pipe, exactly when each of its reads found at most one command there. -/
theorem commands_one_by_one_iff {calls : List Call} (ht : ∀ r ∈ written calls, Typed r)
    (mem : ℕ → ℕ → Int8) : OneByOne mem calls ↔ ReadsAlone [] calls :=
  ⟨alone_of_oneByOne ht, fun h => oneByOne_of_alone ht h mem⟩

/-- The loop of a host reads what the calls leave in the pipe. -/
inductive Feeds : List Int8 → List Call → List HostEvent → Prop where
  | done {pipe} : Feeds pipe [] []
  | other {pipe calls e es} : (∀ bytes blank, e ≠ .command bytes blank) →
      Feeds pipe calls es → Feeds pipe calls (e :: es)
  | write {pipe r calls es} : Feeds (pipe ++ bytesOf r) calls es →
      Feeds pipe (.write r :: calls) es
  | reply {pipe calls es} : Feeds pipe calls es → Feeds pipe (.reply :: calls) es
  | nothing {pipe calls blank es} : pipe.take manMsgLength = [] →
      Feeds (pipe.drop manMsgLength) calls es →
      Feeds pipe (.read :: calls) (.command none blank :: es)
  | bytes {pipe calls blank es} : pipe.take manMsgLength ≠ [] →
      Feeds (pipe.drop manMsgLength) calls es →
      Feeds pipe (.read :: calls) (.command (some (pipe.take manMsgLength)) blank :: es)

theorem host_commands {pipe : List Int8} {calls : List Call} {es : List HostEvent}
    (h : Feeds pipe calls es) {s u : HostState} (hg : AllGenuine s)
    (hrun : Run HostStep s es u) :
    ∃ mem, u.commands = s.commands ++ (handed pipe mem calls).map fun p => manCommand p.1 := by
  induction h generalizing s with
  | done =>
    cases hrun
    exact ⟨fun _ _ => 0, (List.append_nil _).symm⟩
  | @other _ _ e _ hne _ ih =>
    cases hrun with
    | cons hstep hrun =>
      have hb := hostStep_books hg hstep
      obtain ⟨mem, hmem⟩ := ih hb.genuine hrun
      have hnew : newCommands s e = [] := by
        cases e with
        | command bytes blank => exact absurd rfl (hne bytes blank)
        | _ => rfl
      exact ⟨mem, by rw [hmem, hb.commands, hnew, List.append_nil]⟩
  | write _ ih => exact ih hg hrun
  | reply _ ih => exact ih hg hrun
  | nothing he _ ih =>
    cases hrun with
    | cons hstep hrun =>
      have hb := hostStep_books hg hstep
      obtain ⟨mem, hmem⟩ := ih hb.genuine hrun
      refine ⟨fun i => mem (i - 1), ?_⟩
      rw [handed, if_pos he, List.nil_append, hmem, hb.commands]
      exact congrArg (· ++ _) (List.append_nil _)
  | @bytes pipe _ _ _ he _ ih =>
    cases hrun with
    | cons hstep hrun =>
      have hb := hostStep_books hg hstep
      obtain ⟨mem, hmem⟩ := ih hb.genuine hrun
      refine ⟨fun i => if i = 0 then s.manMsg else mem (i - 1), ?_⟩
      rw [handed, if_neg he, hmem, hb.commands, List.append_assoc]
      rfl

/-- A host whose reads find at most one command each has executed the commands that were written,
up to those still in the pipe. -/
theorem host_executes_written {calls : List Call} {es : List HostEvent}
    (ht : ∀ r ∈ written calls, Typed r) (ha : ReadsAlone [] calls) (hf : Feeds [] calls es)
    {garbage u : HostState} (hrun : Run HostStep (hostInit garbage) es u) :
    ∃ q : List Request, unread [] calls = (q.map bytesOf).flatten ∧
      u.commands ++ q.map command = (written calls).map command := by
  obtain ⟨mem, hmem⟩ := host_commands hf (kept_init garbage).genuine hrun
  obtain ⟨q, hleft, hall⟩ := oneByOne_of_alone ht ha mem
  refine ⟨q, hleft, ?_⟩
  have hletters := congrArg (List.map fun p => manCommand p.1) hall
  simp only [List.map_append, List.map_map, Function.comp_def, spelled,
    manCommand_letterByte] at hletters
  rw [hmem]
  exact hletters

def pingThenDir : List Call :=
  [.write (.ping 2), .read, .reply, .write (.setHostDir [97]), .read]

theorem pingThenDir_typed : ∀ r ∈ written pingThenDir, Typed r := by
  intro r hr
  simp only [pingThenDir, written, List.mem_cons, List.not_mem_nil, or_false] at hr
  rcases hr with rfl | rfl
  · exact ⟨by decide +kernel, trivial⟩
  · exact ⟨by decide +kernel, by simp, List.forall_mem_singleton.mpr (by decide)⟩

theorem commands_one_by_one_ping : OneByOne (fun _ _ => 0) pingThenDir := by
  have halone : ReadsAlone [] pingThenDir := ⟨rfl, rfl, trivial⟩
  exact (commands_one_by_one_iff pingThenDir_typed _).mpr halone

/-- The commands "m a" and "m b", both written before the host reads. -/
def twoDirs : List Call := [.write (.setHostDir [97]), .write (.setHostDir [98]), .read]

/-- The host is handed one command for the directory "am b". -/
theorem dirs_merge : OwnCode false twoDirs ∧ (∀ r ∈ written twoDirs, Typed r) ∧
    unread [] twoDirs = [] ∧
    handed [] (fun _ _ => 0) twoDirs = [(109, [97, 109, 32, 98])] ∧
    (written twoDirs).map spelled = [(109, [97]), (109, [98])] ∧
    ¬ OneByOne (fun _ _ => 0) twoDirs := by
  have hhanded : handed [] (fun _ _ => 0) twoDirs = [(109, [97, 109, 32, 98])] := by
    decide +kernel
  refine ⟨⟨rfl, rfl, trivial⟩, ?_, by decide +kernel, hhanded, rfl, ?_⟩
  · intro r hr
    simp only [twoDirs, written, List.mem_cons, List.not_mem_nil, or_false] at hr
    rcases hr with rfl | rfl <;>
      exact ⟨by decide +kernel, by simp, List.forall_mem_singleton.mpr (by decide)⟩
  · rintro ⟨q, -, hall⟩
    rw [hhanded, List.singleton_append] at hall
    injection hall with hpair
    exact absurd hpair (by decide)

end CommandStream
