import NetSim.ShownState
import Mathlib.Algebra.Order.BigOperators.Group.Finset
import Mathlib.Data.Fintype.BigOperators

/-! The manager at its console with all its hosts, each of which goes on with its loop. The manager
does one action after the other, and waits for the reply to a command before it goes on. As in
ManagerReplies a command reaches its host whole and by itself. -/
namespace ManagerSession

open Filter PacketCodec HostNode HostBook HostReplies HostProgress ManagerReplies CommandStream
open ManagerConsole ShownState InfiniteRuns ScanText
open EventRuns (Run)

deriving instance DecidableEq for ManagerReplies.Request
deriving instance DecidableEq for ManagerConsole.Action

section

variable (hosts : List ℤ)

/-- `todo` is what man_main has left to do for the text. -/
structure Session where
  todo : List (Action hosts)
  system : Fin hosts.length → System

inductive SessionEvent where
  | act (a : Action hosts)
  | host (port : Fin hosts.length) (e : HostEvent)
  | read (port : Fin hosts.length)

variable {hosts}

def sessionInit (garbage : Fin hosts.length → HostState) (unset : ℕ → ℤ) (first : Fin hosts.length)
    (text : List Int8) : Session hosts where
  todo := (manMain hosts unset first text).1
  system port := systemInit (garbage port)

def Idle (s : Session hosts) : Prop := ∀ port, (s.system port).serving = none

instance (s : Session hosts) : Decidable (Idle s) :=
  inferInstanceAs (Decidable (∀ port, (s.system port).serving = none))

def atPort (port : Fin hosts.length) (e : SystemEvent) (s : Session hosts) :
    Option (Session hosts) :=
  (systemStep (s.system port) e).map fun system =>
    { s with system := Function.update s.system port system }

def sessionStep (s : Session hosts) : SessionEvent hosts → Option (Session hosts)
  | .act a =>
    if s.todo.head? = some a ∧ Idle s then
      match a with
      | .write port r _ => atPort port (.issue r) { s with todo := s.todo.tail }
      | .display _ => some { s with todo := s.todo.tail }
    else none
  | .host port e => atPort port (.host e) s
  | .read port => atPort port .read s

def SessionStep (s : Session hosts) (e : SessionEvent hosts) (u : Session hosts) : Prop :=
  sessionStep s e = some u

/-- What an event is for the host at a port. -/
def portEvent (port : Fin hosts.length) : SessionEvent hosts → Option SystemEvent
  | .act (.write p r _) => if p = port then some (.issue r) else none
  | .act (.display _) => none
  | .host p e => if p = port then some (.host e) else none
  | .read p => if p = port then some .read else none

/-- No host executes the wait of a download by name that fails or runs out of time. -/
def NoFailedDownloads (s : Session hosts) (e : SessionEvent hosts) : Prop :=
  ∀ port, ∀ x ∈ portEvent port e, NoFailedDownload (s.system port) x

instance (s : Session hosts) (e : SessionEvent hosts) : Decidable (NoFailedDownloads s e) :=
  inferInstanceAs (Decidable (∀ port, ∀ x ∈ portEvent port e, NoFailedDownload (s.system port) x))

/-- The requests in the actions that are for the host at a port. -/
def requestsFor (port : Fin hosts.length) (actions : List (Action hosts)) : List Request :=
  actions.filterMap fun
    | .write p r _ => if p = port then some r else none
    | .display _ => none

def actionsIn (es : List (SessionEvent hosts)) : List (Action hosts) :=
  es.filterMap fun
    | .act a => some a
    | _ => none

theorem atPort_part {port p : Fin hosts.length} {e : SystemEvent} {s u : Session hosts}
    (h : atPort port e s = some u) :
    u.todo = s.todo ∧ Stutters SystemStep (s.system p) (if port = p then some e else none)
      (u.system p) := by
  obtain ⟨system, hs, rfl⟩ := Option.map_eq_some_iff.mp h
  refine ⟨rfl, ?_⟩
  by_cases hp : port = p
  · subst hp
    simp only [if_true, Function.update_self]
    exact .moves hs
  · simp only [if_neg hp, Function.update_of_ne (Ne.symm hp)]
    exact .waits

theorem sessionStep_part {s u : Session hosts} {e : SessionEvent hosts} (h : SessionStep s e u)
    (port : Fin hosts.length) :
    Stutters SystemStep (s.system port) (portEvent port e) (u.system port) := by
  cases e with
  | act a =>
    obtain ⟨-, h⟩ := Option.ite_none_right_eq_some.mp h
    cases a with
    | write p r msg => exact (atPort_part (p := port) h).2
    | display list =>
      cases h
      exact .waits
  | host p x => exact (atPort_part (p := port) h).2
  | read p => exact (atPort_part (p := port) h).2

theorem sessionStep_todo {s u : Session hosts} {e : SessionEvent hosts} (h : SessionStep s e u) :
    s.todo = actionsIn [e] ++ u.todo := by
  cases e with
  | act a =>
    obtain ⟨⟨hhead, -⟩, h⟩ := Option.ite_none_right_eq_some.mp h
    have htodo : s.todo = a :: s.todo.tail := List.eq_cons_of_mem_head? hhead
    cases a with
    | write p r msg =>
      rw [(atPort_part (p := p) h).1]
      exact htodo
    | display list =>
      cases h
      exact htodo
  | host p x => exact (atPort_part (p := p) h).1.symm
  | read p => exact (atPort_part (p := p) h).1.symm

theorem actionsIn_cons (e : SessionEvent hosts) (es : List (SessionEvent hosts)) :
    actionsIn (e :: es) = actionsIn [e] ++ actionsIn es :=
  List.filterMap_append (l := [e])

theorem requestsFor_append (port : Fin hosts.length) (xs ys : List (Action hosts)) :
    requestsFor port (xs ++ ys) = requestsFor port xs ++ requestsFor port ys :=
  List.filterMap_append

theorem requestsIn_events (port : Fin hosts.length) (es : List (SessionEvent hosts)) :
    requestsIn (es.filterMap (portEvent port)) = requestsFor port (actionsIn es) := by
  rw [requestsIn, requestsFor, actionsIn, List.filterMap_filterMap, List.filterMap_filterMap]
  congr 1
  funext e
  cases e with
  | act a =>
    cases a with
    | write p r msg =>
      by_cases hp : p = port
      · simp [portEvent, hp]
      · simp [portEvent, hp]
    | display list => rfl
  | host p x =>
    by_cases hp : p = port
    · simp [portEvent, hp]
    · simp [portEvent, hp]
  | read p =>
    by_cases hp : p = port
    · simp [portEvent, hp]
    · simp [portEvent, hp]

theorem run_actions {s u : Session hosts} {es : List (SessionEvent hosts)}
    (hrun : Run SessionStep s es u) : s.todo = actionsIn es ++ u.todo := by
  induction hrun with
  | nil => rfl
  | cons hs _ ih =>
    rw [actionsIn_cons, List.append_assoc, ← ih]
    exact sessionStep_todo hs

theorem mem_requestsFor {port : Fin hosts.length} {actions : List (Action hosts)} {r : Request}
    (h : r ∈ requestsFor port actions) : ∃ msg, .write port r msg ∈ actions := by
  obtain ⟨a, ha, hr⟩ := List.mem_filterMap.mp h
  cases a with
  | write p r' msg =>
    obtain ⟨rfl, heq⟩ := Option.ite_none_right_eq_some.mp hr
    cases heq
    exact ⟨msg, ha⟩
  | display list => cases hr

/-- What the requests `rs` have brought about at the host with an id and at the manager. -/
structure HasServed (id : ℤ) (rs : List Request) (s : System) : Prop where
  executed : s.host.commands <+: rs.map command
  dir : s.host.dir = lastDir (rs.take s.host.commands.length)
  own : ∀ x ∈ s.read, x.2.ticket.serial = x.1 ∧ (rs[x.1]?).map command = some x.2.ticket.command
  shown : ∀ x ∈ s.read, rs[x.1]? = some .displayHostState →
    shownState x.2.bytes = some (dirText (lastDir (rs.take x.1)), id)

theorem hasServed {id : ℤ} {rs : List Request} {s : System} (h : Shows id rs s) (hp : Paired s)
    (ht : ∀ r ∈ rs, Typed r) (hid : IsInt id) : HasServed id rs s := by
  obtain ⟨done, waiting, hsplit, -, hhost⟩ := h.split
  have hprefix : s.host.commands <+: rs.map command := by
    rw [hhost.commands, hsplit, List.map_append]
    exact List.prefix_append _ _
  constructor
  · exact hprefix
  · rw [hhost.dir, hhost.commands, List.length_map, hsplit, List.take_left]
  · intro x hx
    have hserial := hp.matched x hx
    have hmem : x.2 ∈ s.host.written := hp.first.subset (List.mem_map_of_mem hx)
    have hgenuine := initial_getElem? hprefix (hp.host.genuine_message hmem)
    rw [hserial, List.getElem?_map] at hgenuine
    exact ⟨hserial, hgenuine⟩
  · intro x hx
    exact h.shown hp ht hid hx

def setThenShowOther : List (SessionEvent [1, 2]) :=
  [.act (.write 0 (.setHostDir [97]) [109, 32, 97])] ++
    (iteration (some [109, 32, 97]) (-1) noPacket).map (.host 0) ++
    [.act (.write 1 .displayHostState [115])] ++
    (iteration (some [115]) (-1) noPacket).map (.host 1) ++ [.read 1]

def quietHosts (port : Fin ([1, 2] : List ℤ).length) : HostState :=
  { quietHost with hostId := ([1, 2] : List ℤ).get port }

def guardedSession (s : Session hosts) (e : SessionEvent hosts) :
    Option (Session hosts) :=
  if NoFailedDownloads s e then sessionStep s e else none

theorem setThenShowOther_runs :
    ((setThenShowOther.foldlM guardedSession
      (sessionInit quietHosts (fun _ => 0) 0 (toBytes "m a c 2 s q"))).map fun s =>
        (s.system 1).read.map fun x => (x.1, x.2.ticket)) =
      some [(0, ⟨0, .displayHostState, 0⟩)] := by
  decide +kernel

/-- The events of the process of the manager. -/
def byManager : SessionEvent hosts → Bool
  | .host _ _ => false
  | .act _ | .read _ => true

/-- The manager does not have to wait. -/
def ManagerCan (s : Session hosts) : Prop :=
  ∃ e u, byManager e = true ∧ SessionStep s e u

def Through (s : Session hosts) : Prop := s.todo = [] ∧ Idle s

/-- The actions to come can be done, and with those done they are the actions for the text. -/
structure Underway (all : List (Action hosts)) (s : Session hosts) : Prop where
  writes : ∀ port r msg, .write port r msg ∈ s.todo → (message r).isSome
  actions : ∀ port, (s.system port).issued ++ (requestsFor port s.todo).map command =
    (requestsFor port all).map command

theorem underway_init (garbage : Fin hosts.length → HostState) (unset : ℕ → ℤ)
    (first : Fin hosts.length) (text : List Int8) :
    Underway (manMain hosts unset first text).1 (sessionInit garbage unset first text) := by
  constructor
  · intro port r msg hmem
    rw [(mainLoop_write hmem).1]
    rfl
  · intro port
    rfl

/-- What an event of the system issues. -/
theorem systemStep_issues {s u : System} {o : Option SystemEvent}
    (h : Stutters SystemStep s o u) : u.issued = s.issued ++ (requestsIn o.toList).map command := by
  cases h with
  | waits => exact (List.append_nil _).symm
  | @moves e _ hs =>
    cases e with
    | issue r =>
      simp only [SystemStep, systemStep, Option.ite_none_right_eq_some,
        Option.map_eq_some_iff] at hs
      obtain ⟨-, bytes, -, rfl⟩ := hs
      rfl
    | host x =>
      simp only [SystemStep, systemStep, Option.bind_eq_some_iff, Option.map_eq_some_iff] at hs
      obtain ⟨pipe, -, host, -, rfl⟩ := hs
      exact (List.append_nil _).symm
    | read =>
      simp only [SystemStep, systemStep] at hs
      split at hs
      · cases hs
        exact (List.append_nil _).symm
      · cases hs

theorem underway_step {all : List (Action hosts)} {s u : Session hosts} {e : SessionEvent hosts}
    (h : Underway all s) (hs : SessionStep s e u) : Underway all u := by
  have htodo := sessionStep_todo hs
  constructor
  · intro port r msg hmem
    apply h.writes port r msg
    rw [htodo]
    exact List.mem_append_right _ hmem
  · intro port
    have hissued := systemStep_issues (sessionStep_part hs port)
    have hevents := requestsIn_events port [e]
    have hlist : (portEvent port e).toList = [e].filterMap (portEvent port) := by
      cases hp : portEvent port e <;> simp [hp]
    rw [hissued, hlist, hevents, List.append_assoc, ← List.map_append, ← requestsFor_append,
      ← htodo]
    exact h.actions port

def stepsLeft (s : Session hosts) : ℕ :=
  2 * s.todo.length + ∑ port, (s.system port).serving.toList.length

theorem sum_idle {s : Session hosts} (h : Idle s) :
    ∑ port, (s.system port).serving.toList.length = 0 := by
  apply Finset.sum_eq_zero
  intro port _
  rw [h port]
  rfl

theorem toList_length_le {α : Type} (o : Option α) : o.toList.length ≤ 1 := by
  cases o <;> simp

theorem systemStep_read {s u : System} (h : SystemStep s .read u) :
    u.serving = none ∧ s.serving ≠ none := by
  simp only [SystemStep, systemStep] at h
  split at h
  · next n m hn hm =>
    cases h
    exact ⟨rfl, by rw [hn]; exact Option.some_ne_none n⟩
  · cases h

theorem stepsLeft_falls {s u : Session hosts} {e : SessionEvent hosts} (hs : SessionStep s e u)
    (he : byManager e = true) : stepsLeft u < stepsLeft s := by
  cases e with
  | host p x => cases he
  | act a =>
    have htodo := congrArg List.length (sessionStep_todo hs)
    obtain ⟨⟨hhead, hidle⟩, h⟩ := Option.ite_none_right_eq_some.mp hs
    have hnow := sum_idle hidle
    have hnext : ∑ port, (u.system port).serving.toList.length ≤ 1 := by
      cases a with
      | write p r msg =>
        have hothers : ∀ port, port ≠ p → (u.system port).serving = none := by
          intro port hport
          have hpart := (atPort_part (p := port) h).2
          rw [if_neg (Ne.symm hport)] at hpart
          generalize u.system port = v at hpart
          cases hpart
          exact hidle port
        rw [Finset.sum_eq_single p]
        · exact toList_length_le _
        · intro port _ hport
          rw [hothers port hport]
          rfl
        · intro hp
          exact absurd (Finset.mem_univ p) hp
      | display list =>
        cases h
        exact hnow.le.trans (Nat.zero_le 1)
    change s.todo.length = _ at htodo
    rw [List.length_append] at htodo
    change s.todo.length = 1 + u.todo.length at htodo
    rw [stepsLeft, stepsLeft, hnow, htodo]
    omega
  | read p =>
    have htodo : s.todo = u.todo := sessionStep_todo hs
    have hserving : ∀ port, (u.system port).serving.toList.length ≤
        (s.system port).serving.toList.length := by
      intro port
      have hpart := (atPort_part (p := port) hs).2
      by_cases hp : p = port
      · rw [if_pos hp] at hpart
        generalize u.system port = v at hpart
        cases hpart with
        | moves hmove =>
          rw [(systemStep_read hmove).1]
          exact Nat.zero_le _
      · rw [if_neg hp] at hpart
        generalize u.system port = v at hpart
        cases hpart
        exact le_rfl
    have hread : (u.system p).serving.toList.length < (s.system p).serving.toList.length := by
      have hpart := (atPort_part (p := p) hs).2
      rw [if_pos rfl] at hpart
      generalize u.system p = v at hpart
      cases hpart with
      | moves hmove =>
        obtain ⟨hnone, hsome⟩ := systemStep_read hmove
        obtain ⟨n, hn⟩ := Option.ne_none_iff_exists'.mp hsome
        rw [hnone, hn]
        exact Nat.zero_lt_one
    rw [stepsLeft, stepsLeft, htodo]
    exact Nat.add_lt_add_left
      (Finset.sum_lt_sum (fun port _ => hserving port) ⟨p, Finset.mem_univ p, hread⟩) _

structure SameManager (s u : Session hosts) : Prop where
  todo : u.todo = s.todo
  serving : ∀ port, (u.system port).serving = (s.system port).serving
  read : ∀ port, (u.system port).read = (s.system port).read

theorem sameManager_host {s u : Session hosts} {e : SessionEvent hosts} (hs : SessionStep s e u)
    (he : byManager e = false) : SameManager s u := by
  cases e with
  | act | read => cases he
  | host p x =>
    have hsame : ∀ port, (u.system port).serving = (s.system port).serving ∧
        (u.system port).read = (s.system port).read := by
      intro port
      have hpart := (atPort_part (p := port) hs).2
      generalize u.system port = v at hpart
      by_cases hp : p = port
      · rw [if_pos hp] at hpart
        cases hpart with
        | moves hmove =>
          simp only [SystemStep, systemStep, Option.bind_eq_some_iff,
            Option.map_eq_some_iff] at hmove
          obtain ⟨pipe, -, host, -, rfl⟩ := hmove
          exact ⟨rfl, rfl⟩
      · rw [if_neg hp] at hpart
        cases hpart
        exact ⟨rfl, rfl⟩
    exact ⟨(sessionStep_todo hs).symm, fun port => (hsame port).1, fun port => (hsame port).2⟩

theorem stepsLeft_same {s u : Session hosts} (h : SameManager s u) : stepsLeft u = stepsLeft s := by
  rw [stepsLeft, stepsLeft, h.todo]
  congr 1
  apply Finset.sum_congr rfl
  intro port _
  rw [h.serving port]

theorem SameManager.trans {s u v : Session hosts} (h : SameManager s u) (k : SameManager u v) :
    SameManager s v where
  todo := k.todo.trans h.todo
  serving port := (k.serving port).trans (h.serving port)
  read port := (k.read port).trans (h.read port)

theorem can_act {all : List (Action hosts)} {s : Session hosts} (h : Underway all s)
    (hidle : Idle s)
    (htodo : s.todo ≠ []) : ManagerCan s := by
  obtain ⟨a, rest, hs⟩ := List.exists_cons_of_ne_nil htodo
  have hhead : s.todo.head? = some a ∧ Idle s := ⟨by rw [hs]; rfl, hidle⟩
  cases a with
  | display list => exact ⟨.act (.display list), _, rfl, if_pos hhead⟩
  | write port r msg =>
    obtain ⟨bytes, hbytes⟩ := Option.isSome_iff_exists.mp
      (h.writes port r msg (by rw [hs]; exact List.mem_cons_self))
    have hissue : ∃ v, systemStep (s.system port) (.issue r) = some v := by
      rw [systemStep, if_pos (hidle port), hbytes]
      exact ⟨_, rfl⟩
    obtain ⟨v, hv⟩ := hissue
    exact ⟨.act (.write port r msg), _, rfl, (if_pos hhead).trans (congrArg (Option.map _) hv)⟩

theorem can_read {s : Session hosts} {port : Fin hosts.length} {n : ℕ} {m : HostNode.Message}
    (hn : (s.system port).serving = some n)
    (hm : (s.system port).host.written[(s.system port).read.length]? = some m) :
    ManagerCan s := by
  have hread : systemStep (s.system port) .read =
      some { s.system port with
        serving := none
        read := (s.system port).read ++ [(n, m)] } := by
    rw [systemStep, hn, hm]
  exact ⟨.read port, _, rfl, congrArg (Option.map _) hread⟩

end

section

variable {hosts : List ℤ} (e : Execution (@SessionStep hosts))
  {garbage : Fin hosts.length → HostState}
  {unset : ℕ → ℤ} {first : Fin hosts.length} {text : List Int8}

def portRun (port : Fin hosts.length) : SystemRun :=
  e.part (fun s => s.system port) (portEvent port) fun _ _ _ h => sessionStep_part h port

theorem host_goes {port : Fin hosts.length} (h : ∃ᶠ t in atTop, ∃ x, e.label t = .host port x) :
    ∃ᶠ t in atTop, (hostRun (portRun e port)).label t ≠ none := by
  refine h.mono ?_
  rintro t ⟨x, hx⟩
  have hevent : portEvent port (e.label t) = some (.host x) := by
    rw [hx]
    exact if_pos rfl
  change (portEvent port (e.label t)).bind hostEvent ≠ none
  rw [hevent]
  exact Option.some_ne_none x

theorem underway_at (h0 : e.state 0 = sessionInit garbage unset first text) (t : ℕ) :
    Underway (manMain hosts unset first text).1 (e.state t) := by
  refine e.invariant (P := Underway (manMain hosts unset first text).1)
    (fun _ _ _ hs h => underway_step h hs) (Nat.zero_le t) ?_
  rw [h0]
  exact underway_init garbage unset first text

theorem sameManager_while {t u : ℕ} (htu : t ≤ u)
    (hno : ∀ v, t ≤ v → byManager (e.label v) = false) : SameManager (e.state t) (e.state u) := by
  induction u, htu using Nat.le_induction with
  | base => exact ⟨rfl, fun _ => rfl, fun _ => rfl⟩
  | succ u htu ih => exact ih.trans (sameManager_host (e.valid u) (hno u htu))

theorem manager_can (h0 : e.state 0 = sessionInit garbage unset first text)
    (hhosts : ∀ port, ∃ᶠ t in atTop, ∃ x, e.label t = .host port x) {t : ℕ}
    (hnot : ¬ Through (e.state t)) (hno : ∀ v, t ≤ v → byManager (e.label v) = false) :
    ∃ u, t ≤ u ∧ ∀ v, u ≤ v → ManagerCan (e.state v) := by
  by_cases hidle : Idle (e.state t)
  · refine ⟨t, le_rfl, ?_⟩
    intro v htv
    have hsame := sameManager_while e htv hno
    apply can_act (underway_at e h0 v)
    · intro port
      rw [hsame.serving port]
      exact hidle port
    · rw [hsame.todo]
      exact fun htodo => hnot ⟨htodo, hidle⟩
  · obtain ⟨port, hport⟩ := not_forall.mp hidle
    obtain ⟨n, hn⟩ := Option.ne_none_iff_exists'.mp hport
    have hstart : (portRun e port).state 0 = systemInit (garbage port) :=
      congrArg (fun s => Session.system s port) h0
    obtain ⟨u, m, htu, hserving, hm⟩ :=
      message_there (portRun e port) hstart (host_goes e (hhosts port)) hn
    refine ⟨u, htu, ?_⟩
    intro v huv
    have hsame := sameManager_while e huv fun w hw => hno w (htu.trans hw)
    have hhost : (hostRun (portRun e port)).state 0 = hostInit (garbage port) :=
      congrArg System.host hstart
    have hgrown := (records_grow (hostRun (portRun e port)) hhost huv).1
    apply can_read (n := n) (m := m)
    · rw [hsame.serving port]
      exact hserving
    · rw [hsame.read port]
      exact initial_getElem? hgrown hm

theorem through_step {s u : Session hosts} {a : SessionEvent hosts} (hs : SessionStep s a u)
    (h : Through s) : Through u := by
  cases ha : byManager a with
  | true =>
    have hfalls := stepsLeft_falls hs ha
    rw [stepsLeft, stepsLeft, h.1, sum_idle h.2] at hfalls
    exact absurd hfalls (Nat.not_lt_zero _)
  | false =>
    have hsame := sameManager_host hs ha
    exact ⟨hsame.todo.trans h.1, fun port => (hsame.serving port).trans (h.2 port)⟩

theorem through_issued {all : List (Action hosts)} {s : Session hosts} (h : Underway all s)
    (ht : Through s) (port : Fin hosts.length) :
    (s.system port).issued = (requestsFor port all).map command := by
  have hactions := h.actions port
  rw [ht.1] at hactions
  exact (List.append_nil _).symm.trans hactions

end

def managerEvents (s : Session [1]) : List (SessionEvent [1]) :=
  s.todo.head?.toList.map .act ++ [.read 0]

def nextEvent (s : Session [1]) : SessionEvent [1] :=
  match (managerEvents s).find? fun e => (sessionStep s e).isSome with
  | some e => e
  | none => .host 0 (nextPart (s.system 0).host (s.system 0).pipe.head?)

theorem mem_managerEvents {s u : Session [1]} {e : SessionEvent [1]} (h : SessionStep s e u)
    (he : byManager e = true) : e ∈ managerEvents s := by
  cases e with
  | host => cases he
  | act a =>
    obtain ⟨⟨hhead, -⟩, -⟩ := Option.ite_none_right_eq_some.mp h
    rw [managerEvents, hhead]
    exact List.mem_cons_self
  | read port =>
    have hport : port = 0 := Fin.eq_zero port
    rw [hport]
    exact List.mem_append_right _ (List.mem_singleton.mpr rfl)

theorem byManager_managerEvents {s : Session [1]} {e : SessionEvent [1]}
    (h : e ∈ managerEvents s) : byManager e = true := by
  rcases List.mem_append.mp h with h | h
  · obtain ⟨a, -, rfl⟩ := List.mem_map.mp h
    rfl
  · rw [List.mem_singleton.mp h]
    rfl

theorem nextEvent_cases (s : Session [1]) :
    (∃ u, SessionStep s (nextEvent s) u ∧ byManager (nextEvent s) = true) ∨
      ¬ ManagerCan s ∧
        nextEvent s = .host 0 (nextPart (s.system 0).host (s.system 0).pipe.head?) := by
  cases hfind : (managerEvents s).find? fun e => (sessionStep s e).isSome with
  | some e =>
    have hnext : nextEvent s = e := by rw [nextEvent, hfind]
    have hsome : (sessionStep s e).isSome = true := by
      simpa using List.find?_some hfind
    obtain ⟨u, hu⟩ := Option.isSome_iff_exists.mp hsome
    rw [hnext]
    exact .inl ⟨u, hu, byManager_managerEvents (List.mem_of_find?_eq_some hfind)⟩
  | none =>
    refine .inr ⟨?_, by rw [nextEvent, hfind]⟩
    rintro ⟨e, u, he, hu⟩
    have hnone := List.find?_eq_none.mp hfind e (mem_managerEvents hu he)
    rw [SessionStep] at hu
    simp [hu] at hnone

/-- Only "p 2" is to be done. -/
structure PingSession (s : Session [1]) : Prop where
  todo : ∀ a ∈ s.todo, a = .write 0 (.ping 2) pingText
  host : PingsOnly (s.system 0).host
  pipe : ∀ bytes ∈ (s.system 0).pipe, bytes = pingText

theorem pingSession_manager {s u : Session [1]} {e : SessionEvent [1]} (h : PingSession s)
    (hs : SessionStep s e u) (he : byManager e = true) : PingSession u := by
  have htodo := sessionStep_todo hs
  have hpart := sessionStep_part hs 0
  have hrest : ∀ a ∈ u.todo, a = .write 0 (.ping 2) pingText := by
    intro a ha
    apply h.todo
    rw [htodo]
    exact List.mem_append_right _ ha
  cases e with
  | host => cases he
  | act a =>
    have ha : a = .write 0 (.ping 2) pingText := by
      apply h.todo
      rw [htodo]
      exact List.mem_cons_self
    subst ha
    rw [portEvent, if_pos rfl] at hpart
    generalize hv : u.system 0 = v at hpart
    cases hpart with
    | moves hmove =>
      have hmessage : message (.ping 2) = some pingText := by decide
      obtain ⟨-, hmove⟩ := Option.ite_none_right_eq_some.mp hmove
      rw [hmessage] at hmove
      cases hmove
      refine ⟨hrest, ?_, ?_⟩
      · rw [hv]
        exact h.host
      · rw [hv]
        intro bytes hbytes
        rcases List.mem_append.mp hbytes with hold | hnew
        · exact h.pipe bytes hold
        · exact List.mem_singleton.mp hnew
  | read port =>
    have hport : port = 0 := Fin.eq_zero port
    rw [portEvent, if_pos hport] at hpart
    generalize hv : u.system 0 = v at hpart
    cases hpart with
    | moves hmove =>
      simp only [SystemStep, systemStep] at hmove
      split at hmove
      · cases hmove
        refine ⟨hrest, ?_, ?_⟩
        · rw [hv]
          exact h.host
        · rw [hv]
          exact h.pipe
      · cases hmove

theorem pingSession_next (s : Session [1]) (h : PingSession s) :
    SessionStep s (nextEvent s) ((sessionStep s (nextEvent s)).getD s) ∧
      PingSession ((sessionStep s (nextEvent s)).getD s) := by
  suffices hnext : ∃ u, sessionStep s (nextEvent s) = some u ∧ PingSession u by
    obtain ⟨u, hu, hsession⟩ := hnext
    rw [SessionStep, hu]
    exact ⟨rfl, hsession⟩
  rcases nextEvent_cases s with ⟨u, hu, hman⟩ | ⟨-, hnext⟩
  · exact ⟨u, hu, pingSession_manager h hu hman⟩
  · obtain ⟨host, pipe, hstep, hhost, hpipe⟩ := pinged_host h.host h.pipe
    rw [hnext]
    refine ⟨_, congrArg (Option.map _) hstep, h.todo, ?_, ?_⟩
    · simp only [Function.update_self]
      exact hhost
    · simp only [Function.update_self]
      exact hpipe

theorem pingSession_start :
    PingSession (sessionInit (fun _ => quietHost) (fun _ => 0) 0 (toBytes "p 2 q")) := by
  refine ⟨?_, ⟨?_, ?_⟩, ?_⟩
  · decide +kernel
  · simp [sessionInit, systemInit, hostInit]
  · simp [sessionInit, systemInit, hostInit]
  · simp [sessionInit, systemInit]

def pingingSession : Execution (@SessionStep [1]) :=
  .driven nextEvent (fun s => (sessionStep s (nextEvent s)).getD s) pingSession_next
    pingSession_start

theorem pingingSession_hosts (port : Fin ([1] : List ℤ).length) :
    ∃ᶠ t in atTop, ∃ x, pingingSession.label t = .host port x := by
  rw [frequently_atTop]
  intro a
  apply goal_of_rank (fun t => stepsLeft (pingingSession.state t))
    (fun t => byManager (pingingSession.label t) = true)
    (fun t => ∃ x, pingingSession.label t = .host port x)
  · intro t _
    refine ⟨t, le_rfl, ?_⟩
    rcases nextEvent_cases (pingingSession.state t) with ⟨u, -, hman⟩ | ⟨-, hnext⟩
    · exact .inl hman
    · have hport : port = 0 := Fin.eq_zero port
      rw [hport]
      exact .inr ⟨_, hnext⟩
  · intro t _ ht
    exact stepsLeft_same (sameManager_host (pingingSession.valid t) (Bool.not_eq_true _ ▸ ht))
  · intro t _ ht _
    exact stepsLeft_falls (pingingSession.valid t) ht

end ManagerSession
