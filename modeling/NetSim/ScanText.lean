import Mathlib.Tactic.IntervalCases
import NetSim.HostNode

/-! The conversions `%d` and `%s` of scanf on a text: what they take of it, and what is left. -/
namespace ScanText

open HostNode

structure Spelled (sign digits : List Int8) : Prop where
  sign : sign = [] ∨ sign = [45] ∨ sign = [43]
  digits : digits ≠ [] ∧ ∀ d ∈ digits, isDigit d = true

/-- The bytes that `%d` reads as z. -/
def Numeral (z : ℤ) (bytes : List Int8) : Prop :=
  ∃ sign digits, Spelled sign digits ∧ bytes = sign ++ digits ∧ z = toInt (sign = [45]) digits

def Stops (p : Int8 → Bool) (s : List Int8) : Prop := ∀ b ∈ s.head?, p b = false

def Blank (s : List Int8) : Prop := ∀ b ∈ s, isSpace b = true

theorem blank_nil : Blank [] := List.forall_mem_nil _

theorem blank_space : Blank (toBytes " ") := by
  have h : toBytes " " = [32] := by decide
  rw [h, Blank, List.forall_mem_singleton]
  decide

theorem stops_cons {p : Int8 → Bool} {b : Int8} (h : p b = false) (s : List Int8) :
    Stops p (b :: s) := by
  simpa [Stops] using h

theorem stops_space {p : Int8 → Bool} (h : p 32 = false) (s : List Int8) :
    Stops p (toBytes " " ++ s) := by
  have hspace : toBytes " " = [32] := by decide
  rw [hspace]
  exact stops_cons h s

theorem stops_nil (p : Int8 → Bool) : Stops p [] := by simp [Stops]

theorem stops_append {p : Int8 → Bool} {l : List Int8} (hne : l ≠ [])
    (h : ∀ b ∈ l, p b = false) (s : List Int8) : Stops p (l ++ s) := by
  cases l with
  | nil => exact absurd rfl hne
  | cons b l => exact stops_cons (h b List.mem_cons_self) _

theorem stops_dropWhile (p : Int8 → Bool) (s : List Int8) : Stops p (s.dropWhile p) := by
  intro b hb
  have := List.head?_dropWhile_not p s
  rw [Option.mem_def.mp hb] at this
  simpa using this

theorem takeWhile_of_stops {p : Int8 → Bool} {l s : List Int8} (hl : ∀ b ∈ l, p b = true)
    (hs : Stops p s) : (l ++ s).takeWhile p = l := by
  rw [List.takeWhile_append_of_pos hl]
  cases s with
  | nil => simp
  | cons b s => simp [hs b rfl]

theorem dropWhile_of_stops {p : Int8 → Bool} {l s : List Int8} (hl : ∀ b ∈ l, p b = true)
    (hs : Stops p s) : (l ++ s).dropWhile p = s := by
  rw [List.dropWhile_append_of_pos hl]
  cases s with
  | nil => rfl
  | cons b s => simp [hs b rfl]

def unsigned (s : List Int8) : List Int8 :=
  if s.head? = some 45 ∨ s.head? = some 43 then s.tail else s

/-- `%d` on a stream, with what it leaves also when it fails: a sign by itself is taken. -/
def takeInt (s : List Int8) : Option ℤ × List Int8 :=
  let s := s.dropWhile isSpace
  let digits := (unsigned s).takeWhile isDigit
  (if digits = [] then none else some (toInt (s.head? = some 45) digits),
    (unsigned s).dropWhile isDigit)

theorem scanInt_eq (s : List Int8) :
    scanInt s = (takeInt s).1.map fun z => (z, (takeInt s).2) := by
  simp only [takeInt, apply_ite (Option.map _), Option.map_none, Option.map_some]
  rfl

theorem isDigit_cases {d : Int8} (h : isDigit d = true) :
    isSpace d = false ∧ d ≠ 45 ∧ d ≠ 43 := by
  simp only [isDigit, Bool.and_eq_true, decide_eq_true_eq, Int8.le_iff_toInt_le] at h
  obtain ⟨hlow, hhigh⟩ : 48 ≤ d.toInt ∧ d.toInt ≤ 57 := h
  have hne : ∀ z : Int8, z.toInt < 48 → d ≠ z := by
    rintro z hz rfl
    omega
  refine ⟨?_, hne 45 (by decide), hne 43 (by decide)⟩
  have h13 : (13 : Int8).toInt = 13 := by decide
  simp only [isSpace, Bool.or_eq_false_iff, Bool.and_eq_false_iff, decide_eq_false_iff_not,
    Int8.le_iff_toInt_le, h13]
  exact ⟨hne 32 (by decide), Or.inr (by omega)⟩

theorem Spelled.starts {sign digits : List Int8} (h : Spelled sign digits) (rest : List Int8) :
    Stops isSpace (sign ++ digits ++ rest) := by
  obtain ⟨hsign, hne, hall⟩ := h
  refine stops_append (by simp [hne]) ?_ rest
  intro b hb
  rcases List.mem_append.mp hb with hb | hb
  · rcases hsign with rfl | rfl | rfl
    · cases hb
    · cases List.mem_singleton.mp hb
      decide
    · cases List.mem_singleton.mp hb
      decide
  · exact (isDigit_cases (hall b hb)).1

theorem Spelled.unsigned {sign digits : List Int8} (h : Spelled sign digits) (rest : List Int8) :
    unsigned (sign ++ digits ++ rest) = digits ++ rest ∧
      ((sign ++ digits ++ rest).head? = some 45 ↔ sign = [45]) := by
  obtain ⟨hsign, hne, hall⟩ := h
  rcases hsign with rfl | rfl | rfl
  · obtain ⟨d, ds, rfl⟩ := List.exists_cons_of_ne_nil hne
    obtain ⟨-, hminus, hplus⟩ := isDigit_cases (hall d List.mem_cons_self)
    simp [ScanText.unsigned, hminus, hplus]
  · simp [ScanText.unsigned]
  · simp [ScanText.unsigned]

/-- `%d` takes a numeral with the blanks before it, up to the first byte that is no digit. -/
theorem takeInt_numeral {z : ℤ} {bytes : List Int8} (h : Numeral z bytes) {blank rest : List Int8}
    (hb : Blank blank) (hr : Stops isDigit rest) :
    takeInt (blank ++ (bytes ++ rest)) = (some z, rest) := by
  obtain ⟨sign, digits, hspelled, rfl, rfl⟩ := h
  have hskip : (blank ++ (sign ++ digits ++ rest)).dropWhile isSpace = sign ++ digits ++ rest :=
    dropWhile_of_stops hb (hspelled.starts rest)
  obtain ⟨hunsigned, hminus⟩ := hspelled.unsigned rest
  obtain ⟨-, hne, hall⟩ := hspelled
  simp only [takeInt, hskip, hunsigned, hminus, takeWhile_of_stops hall hr,
    dropWhile_of_stops hall hr, if_neg hne]

theorem sign_unsigned (s : List Int8) :
    ∃ sign, (sign = [] ∨ sign = [45] ∨ sign = [43]) ∧ s = sign ++ unsigned s ∧
      (s.head? = some 45 ↔ sign = [45]) := by
  cases s with
  | nil => exact ⟨[], .inl rfl, rfl, by simp⟩
  | cons b s =>
    by_cases hminus : b = 45
    · subst hminus
      exact ⟨[45], .inr (.inl rfl), by simp [unsigned], by simp⟩
    · by_cases hplus : b = 43
      · subst hplus
        exact ⟨[43], .inr (.inr rfl), by simp [unsigned], by simp⟩
      · exact ⟨[], .inl rfl, by simp [unsigned, hminus, hplus], by simp [hminus]⟩

theorem takeInt_some {s : List Int8} {z : ℤ} (h : (takeInt s).1 = some z) :
    ∃ blank bytes, Blank blank ∧ Numeral z bytes ∧ Stops isDigit (takeInt s).2 ∧
      s = blank ++ (bytes ++ (takeInt s).2) := by
  simp only [takeInt, Option.ite_none_left_eq_some, Option.some.injEq] at h ⊢
  obtain ⟨hne, rfl⟩ := h
  obtain ⟨sign, hsign, hrest, hminus⟩ := sign_unsigned (s.dropWhile isSpace)
  have hblank : Blank (s.takeWhile isSpace) := fun b hb => List.mem_takeWhile_imp hb
  have hall : ∀ d ∈ (unsigned (s.dropWhile isSpace)).takeWhile isDigit, isDigit d = true :=
    fun d hd => List.mem_takeWhile_imp hd
  refine ⟨_, _, hblank, ⟨sign, _, ⟨hsign, hne, hall⟩, rfl, ?_⟩, stops_dropWhile _ _, ?_⟩
  · simp only [hminus]
  · rw [List.append_assoc, List.takeWhile_append_dropWhile, ← hrest,
      List.takeWhile_append_dropWhile]

def isSign (b : Int8) : Bool := b = 45 || b = 43

/-- There is no number for `%d`, at most a sign, which it takes. -/
def NoNumeral (s rest : List Int8) : Prop :=
  ∃ blank sign, Blank blank ∧
    (sign = [] ∧ Stops isSpace rest ∧ Stops isSign rest ∨ sign = [45] ∨ sign = [43]) ∧
    Stops isDigit rest ∧ s = blank ++ (sign ++ rest)

theorem unsigned_of_stops {s : List Int8} (h : Stops isSign s) : unsigned s = s := by
  apply if_neg
  rintro (hs | hs)
  · exact absurd (h 45 hs) (by decide)
  · exact absurd (h 43 hs) (by decide)

theorem takeInt_of_noNumeral {s rest : List Int8} (h : NoNumeral s rest) :
    takeInt s = (none, rest) := by
  obtain ⟨blank, sign, hblank, hsign, hrest, rfl⟩ := h
  have hfacts : Stops isSpace (sign ++ rest) ∧ unsigned (sign ++ rest) = rest := by
    rcases hsign with ⟨rfl, hspace, hnone⟩ | rfl | rfl
    · exact ⟨hspace, unsigned_of_stops hnone⟩
    · exact ⟨stops_cons (by decide) rest, rfl⟩
    · exact ⟨stops_cons (by decide) rest, rfl⟩
  have hdigits : rest.takeWhile isDigit = [] := takeWhile_of_stops (List.forall_mem_nil _) hrest
  have hleft : rest.dropWhile isDigit = rest := dropWhile_of_stops (List.forall_mem_nil _) hrest
  simp only [takeInt, dropWhile_of_stops hblank hfacts.1, hfacts.2, hdigits, hleft, if_true]

theorem noNumeral_of_takeInt {s : List Int8} (h : (takeInt s).1 = none) :
    NoNumeral s (takeInt s).2 := by
  have hdigits : (unsigned (s.dropWhile isSpace)).takeWhile isDigit = [] := by
    by_contra hne
    simp [takeInt, hne] at h
  have hleft : (takeInt s).2 = unsigned (s.dropWhile isSpace) := by
    have hsplit := List.takeWhile_append_dropWhile (p := isDigit)
      (l := unsigned (s.dropWhile isSpace))
    rwa [hdigits, List.nil_append] at hsplit
  have hblank : Blank (s.takeWhile isSpace) := fun b hb => List.mem_takeWhile_imp hb
  have hstops : Stops isDigit (takeInt s).2 := stops_dropWhile _ _
  have hwhole : s = s.takeWhile isSpace ++ s.dropWhile isSpace :=
    List.takeWhile_append_dropWhile.symm
  rw [hleft] at hstops ⊢
  by_cases hsign : Stops isSign (s.dropWhile isSpace)
  · rw [unsigned_of_stops hsign] at hstops ⊢
    exact ⟨_, [], hblank, .inl ⟨rfl, stops_dropWhile _ _, hsign⟩, hstops, hwhole⟩
  · cases hleft : s.dropWhile isSpace with
    | nil => exact absurd (hleft ▸ stops_nil _) hsign
    | cons b t =>
      have hb : b = 45 ∨ b = 43 := by
        by_contra hno
        rw [hleft] at hsign
        exact hsign (stops_cons (by simpa [isSign] using hno) t)
      have hrest : unsigned (b :: t) = t := by
        rcases hb with rfl | rfl <;> rfl
      rw [hleft, hrest] at hstops
      rw [hleft] at hwhole
      rw [hrest]
      refine ⟨_, [b], hblank, .inr ?_, hstops, hwhole⟩
      exact hb.imp (congrArg (fun c => [c])) (congrArg (fun c => [c]))

/-- `%s` on a stream, and what it leaves. -/
def takeWord (s : List Int8) : Option (List Int8) × List Int8 :=
  let s := s.dropWhile isSpace
  let word := s.takeWhile fun b => !isSpace b
  (if word = [] then none else some word, s.dropWhile fun b => !isSpace b)

/-- The bytes that `%s` reads, NUL characters among them. -/
def Solid (word : List Int8) : Prop := word ≠ [] ∧ ∀ b ∈ word, isSpace b = false

instance (word : List Int8) : Decidable (Solid word) :=
  @instDecidableAnd _ _ _ (List.decidableBAll _ word)

theorem scanWord_eq (s : List Int8) :
    scanWord s = (takeWord s).1.map fun word => (word, (takeWord s).2) := by
  simp only [takeWord, apply_ite (Option.map _), Option.map_none, Option.map_some]
  rfl

/-- `%s` takes a word with the blanks before it, up to the next blank. -/
theorem takeWord_solid {word : List Int8} (h : Solid word) {blank rest : List Int8}
    (hb : Blank blank) (hr : Stops (fun b => !isSpace b) rest) :
    takeWord (blank ++ (word ++ rest)) = (some word, rest) := by
  obtain ⟨hne, hall⟩ := h
  have hskip : (blank ++ (word ++ rest)).dropWhile isSpace = word ++ rest :=
    dropWhile_of_stops hb (stops_append hne hall rest)
  have hword : ∀ b ∈ word, (!isSpace b) = true := by simpa using hall
  simp only [takeWord, hskip, takeWhile_of_stops hword hr, dropWhile_of_stops hword hr, if_neg hne]

theorem takeWord_some {s word : List Int8} (h : (takeWord s).1 = some word) :
    ∃ blank, Blank blank ∧ Solid word ∧ Stops (fun b => !isSpace b) (takeWord s).2 ∧
      s = blank ++ (word ++ (takeWord s).2) := by
  simp only [takeWord, Option.ite_none_left_eq_some, Option.some.injEq] at h ⊢
  obtain ⟨hne, rfl⟩ := h
  have hblank : Blank (s.takeWhile isSpace) := fun b hb => List.mem_takeWhile_imp hb
  have hall : ∀ b ∈ (s.dropWhile isSpace).takeWhile (fun b => !isSpace b), isSpace b = false := by
    intro b hb
    simpa using List.mem_takeWhile_imp hb
  refine ⟨_, hblank, ⟨hne, hall⟩, stops_dropWhile _ _, ?_⟩
  rw [List.takeWhile_append_dropWhile, List.takeWhile_append_dropWhile]

def value (digits : List Int8) : ℤ := digits.foldl (fun n d => 10 * n + (d.toInt - 48)) 0

def Decimal (z : ℤ) (bytes : List Int8) : Prop :=
  ∃ sign digits, Spelled sign digits ∧ bytes = sign ++ digits ∧
    z = if sign = [45] then -value digits else value digits

/-- The values of a C `int`. -/
def IsInt (z : ℤ) : Prop := -intMax - 1 ≤ z ∧ z ≤ intMax

instance (z : ℤ) : Decidable (IsInt z) := inferInstanceAs (Decidable (_ ∧ _))

theorem Decimal.numeral {z : ℤ} {bytes : List Int8} (h : Decimal z bytes) (hz : IsInt z) :
    Numeral z bytes := by
  obtain ⟨sign, digits, hspelled, hbytes, hvalue⟩ := h
  refine ⟨sign, digits, hspelled, hbytes, ?_⟩
  have hsign : (if sign = [45] then -value digits else value digits) =
      if decide (sign = [45]) = true then -value digits else value digits := by
    simp only [decide_eq_true_eq]
  rw [hsign] at hvalue
  rw [toInt]
  change z = (max (-longMax - 1) (min longMax (if decide (sign = [45]) = true then -value digits
    else value digits)) + intMax + 1) % (2 * (intMax + 1)) - intMax - 1
  rw [← hvalue]
  obtain ⟨hlow, hhigh⟩ := hz
  simp only [intMax, longMax] at *
  omega

theorem digit_value {c : Char} (h : c.isDigit = true) :
    isDigit (Int8.ofInt c.toNat) = true ∧ (Int8.ofInt c.toNat).toInt - 48 = (c.toNat - 48 : ℕ) := by
  simp only [Char.isDigit, Bool.and_eq_true, decide_eq_true_eq] at h
  obtain ⟨hlow, hhigh⟩ : 48 ≤ c.toNat ∧ c.toNat ≤ 57 := h
  generalize c.toNat = n at hlow hhigh
  interval_cases n <;> decide

theorem foldl_digits (l : List Char) (h : ∀ c ∈ l, c.isDigit = true) (n : ℕ) :
    (l.map fun c => Int8.ofInt c.toNat).foldl (fun n d => 10 * n + (d.toInt - 48)) (n : ℤ) =
      (Nat.ofDigitChars 10 l n : ℕ) := by
  induction l generalizing n with
  | nil => simp [Nat.ofDigitChars]
  | cons c l ih =>
    obtain ⟨hc, hl⟩ := List.forall_mem_cons.mp h
    have hstep : 10 * (n : ℤ) + ((Int8.ofInt c.toNat).toInt - 48) =
        ((10 * n + (c.toNat - '0'.toNat) : ℕ) : ℤ) := by
      rw [(digit_value hc).2]
      push_cast
      rfl
    rw [List.map_cons, List.foldl_cons, hstep, ih hl, Nat.ofDigitChars_cons]

theorem toBytes_repr (n : ℕ) :
    toBytes (Nat.repr n) ≠ [] ∧ (∀ d ∈ toBytes (Nat.repr n), isDigit d = true) ∧
      value (toBytes (Nat.repr n)) = n := by
  have hdigits : ∀ c ∈ (Nat.repr n).toList, c.isDigit = true := by
    intro c hc
    rw [Nat.toList_repr] at hc
    exact Nat.isDigit_of_mem_toDigits (by decide) (by decide) hc
  refine ⟨by simp [toBytes, Nat.toDigits_ne_nil], ?_, ?_⟩
  · intro d hd
    obtain ⟨c, hc, rfl⟩ := List.mem_map.mp hd
    exact (digit_value (hdigits c hc)).1
  · have hfold := foldl_digits _ hdigits 0
    rw [Nat.toList_repr, Nat.ofDigitChars_ten_toDigits, ← Nat.toList_repr] at hfold
    exact hfold

theorem decimal_toString (z : ℤ) : Decimal z (toBytes (toString z)) := by
  cases z with
  | ofNat n =>
    obtain ⟨hne, hall, hvalue⟩ := toBytes_repr n
    refine ⟨[], toBytes (Nat.repr n), ⟨.inl rfl, hne, hall⟩, rfl, ?_⟩
    rw [hvalue]
    rfl
  | negSucc n =>
    obtain ⟨hne, hall, hvalue⟩ := toBytes_repr (n + 1)
    refine ⟨[45], toBytes (Nat.repr (n + 1)), ⟨.inr (.inl rfl), hne, hall⟩, ?_, ?_⟩
    · change toBytes ("-" ++ Nat.repr (n + 1)) = _
      rw [toBytes, String.toList_append, List.map_append]
      rfl
    · rw [hvalue]
      rfl

end ScanText
