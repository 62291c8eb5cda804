import ActorMachine.Proofs.Intact
import ActorMachine.Proofs.Letters
import ActorMachine.Proofs.StalePids

/-!
# Isolation

All that a turn does to the other processes is what has been asked for in it and granted: their
mailboxes get copies of the messages that have been sent to them, and they are asked to end
(`Process.Touched`). This is shown for one request (`Dispatch.touched_of_perform`), and so for each
step of a turn and, by induction, for the whole turn (`Session.touched_of_run`).
-/

namespace ActorMachine

open ProcessTable (Tally)

/-! ## What is asked for can be granted -/

/-- Requests for the same, about matched values. -/
inductive Ask.Matched : Ask → Ask → Prop
  | send {σ : Matching} {h h' : Heap} {v w : Value} (target : Pid) (iso : Iso σ h.memory h'.memory)
    (hvw : v.Match σ w) : Matched (.send target v h) (.send target w h')
  | spawn {σ : Matching} {h h' : Heap} {v w : Value} {vs ws : List Value}
    (iso : Iso σ h.memory h'.memory) (hvw : v.Match σ w) (hvs : Value.MatchList σ vs ws) :
    Matched (.spawn v vs h) (.spawn w ws h')
  | kill (target : Pid) : Matched (.kill target) (.kill target)

/-- Scribes that have written down requests for the same. -/
structure Scribe.Matched (k k' : Scribe) : Prop where
  self : k.self = k'.self
  asked : Option.Rel Ask.Matched k.asked k'.asked

theorem Scribe.respects : Kernel.Respects Scribe.Matched fun _ => True where
  self h := h.self
  send h _ _ iso hvw target := ⟨rfl, trivial, h.self, .some (.send target iso hvw)⟩
  spawn h _ _ iso hvw hvs := ⟨rfl, trivial, h.self, .some (.spawn iso hvw hvs)⟩
  kill h target := ⟨rfl, trivial, h.self, .some (.kill target)⟩

/-- What a sound actor asks for is about values that are in its heap. -/
theorem Session.matched_ask? {κ : Type} [Kernel κ] {l : Loader} {s : Session κ} (inline : l.Inline)
    (sound : s.actor.Sound) : Option.Rel Ask.Matched (s.ask? l) (s.ask? l) := by
  have hadvance := together_equivalent
    (fun hst hg => Exec.together_advance Scribe.respects inline hst hg)
    (s := ⟨s.actor, ⟨Kernel.self s.kernel, none⟩⟩) (t := ⟨s.actor, ⟨Kernel.self s.kernel, none⟩⟩)
    ⟨sound, rfl, .none⟩
  have hleft := (hadvance.mono (fun _ _ _ _ h => h.2) fun _ _ _ _ h => h.2).leaves
  exact hleft.kernel.asked

/-! ## Who is meant -/

/-- A pid stands for the same process as another one: they agree in slot and generation. -/
def PidLayout.Addresses (l : PidLayout) (address pid : Pid) : Prop :=
  l.index address = l.index pid ∧ l.generation address = l.generation pid

instance (l : PidLayout) (address pid : Pid) : Decidable (l.Addresses address pid) :=
  inferInstanceAs (Decidable (_ ∧ _))

namespace Ask

/-- The letter to a process that a request is, if it is one. -/
def letter? (l : PidLayout) (pid : Pid) : Ask → Option Letter
  | send target message source => if l.Addresses target pid then some ⟨message, source⟩ else none
  | _ => none

/-- Whether a process is to end if a request is granted. -/
def kills (l : PidLayout) (pid : Pid) : Ask → Bool
  | kill target => l.Addresses target pid
  | _ => false

/-- The requests that are granted of those that are made, here of one. -/
def granted {κ : Type} [Kernel κ] (q : Ask) (k : κ) : List Ask :=
  match q.perform k with
  | .ok .. => [q]
  | .error .. => []

/-- The request, if something has come of it. -/
def grantedBy {ε σ α : Type} (q : Ask) : EStateM.Result ε σ α → List Ask
  | .ok .. => [q]
  | .error .. => []

theorem granted_eq {κ : Type} [Kernel κ] (q : Ask) (k : κ) :
    q.granted k = q.grantedBy (q.perform k) := by
  unfold granted
  cases q.perform k <;> rfl

/-- The letters to a process among some requests, in order. -/
def letters (l : PidLayout) (pid : Pid) (asks : List Ask) : List Letter :=
  asks.filterMap (letter? l pid)

end Ask

open Ask (letters)

/-- The state of a process when a message has arrived. -/
def ProcessState.notified : ProcessState → ProcessState
  | .waiting deadline _ => .waiting deadline true
  | state => state

theorem ProcessState.notified_notified (state : ProcessState) :
    state.notified.notified = state.notified := by
  cases state <;> rfl

theorem Process.notify_eq (p : Process) : p.notify = { p with state := p.state.notified } := by
  obtain ⟨pid, actor, state, exitRequested⟩ := p
  cases state <;> rfl

/-- What requests that have been granted have done to a process: it has received the letters to it,
which have woken it if it was waiting, and it has been asked to end if this was among the
requests. -/
structure Process.Touched (l : PidLayout) (asks : List Ask) (q q' : Process) : Prop where
  pid : q'.pid = q.pid
  actor : ∃ γ, q.actor.Receives γ (letters l q.pid asks) q'.actor
  exitRequested : q'.exitRequested = (q.exitRequested || asks.any (Ask.kills l q.pid))
  state : q'.state = if (letters l q.pid asks).isEmpty then q.state else q.state.notified

namespace Process.Touched

variable {l : PidLayout} {asks asks' : List Ask} {p q r : Process}

/-- Nothing has been done to a process by what was not meant for it. -/
theorem refl (sound : q.actor.Sound) (silent : letters l q.pid asks = [])
    (spared : asks.any (Ask.kills l q.pid) = false) : q.Touched l asks q := by
  obtain ⟨ρ, sound⟩ := sound
  refine ⟨rfl, ⟨ρ, ?_⟩, ?_, ?_⟩
  · rw [silent]
    exact .of_equivalent sound
  · rw [spared, Bool.or_false]
  · rw [silent]
    rfl

theorem trans (h : p.Touched l asks q) (h' : q.Touched l asks' r) :
    p.Touched l (asks ++ asks') r := by
  have hletters : letters l p.pid (asks ++ asks') =
      letters l p.pid asks ++ letters l q.pid asks' := by
    rw [letters, List.filterMap_append, h.pid]
    rfl
  obtain ⟨γ, hactor⟩ := h.actor
  obtain ⟨γ', hactor'⟩ := h'.actor
  refine ⟨h'.pid.trans h.pid, ⟨γ.comp γ', ?_⟩, ?_, ?_⟩
  · rw [hletters]
    exact hactor.trans hactor'
  · rw [h'.exitRequested, h.exitRequested, List.any_append, Bool.or_assoc, h.pid]
  · -- A process that has been woken once is not woken again.
    have hempty : ∀ xs ys : List Letter, (xs ++ ys).isEmpty = (xs.isEmpty && ys.isEmpty) := by
      intro xs ys
      cases xs <;> rfl
    rw [h'.state, h.state, hletters, hempty]
    cases (letters l p.pid asks).isEmpty <;> cases (letters l q.pid asks').isEmpty <;>
      simp [ProcessState.notified_notified]

end Process.Touched

namespace Process

variable {l : PidLayout} {q : Process}

/-- What concerns the actor of a process leaves the rest of it alone. -/
theorem ends_onActor {m : ActorM α} {ok : α → Process → Prop} {err : Fault → Process → Prop}
    (h : Ends m q.actor (fun x a => ok x { q with actor := a }) fun e a =>
      err e { q with actor := a }) :
    Ends (onActor m) q ok err := by
  unfold Ends onActor
  unfold Ends at h
  dsimp only
  cases hm : m q.actor with
  | ok x a =>
    rw [hm] at h
    exact h
  | error e a =>
    rw [hm] at h
    exact h

/-- A delivery to a process: a letter that it gets, or nothing. -/
theorem touched_deliver (sound : q.actor.Sound) {address : Pid} {x : Letter} (hx : x.Sound)
    (meant : l.Addresses address q.pid) :
    Ends (deliver address (some x.source) x.message) q
      (fun _ q' => q.Touched l [.send address x.message x.source] q') fun _ q' =>
        q.Touched l [] q' := by
  obtain ⟨ρ, sound⟩ := sound
  have hletters : letters l q.pid [.send address x.message x.source] = [x] := by
    simp [letters, Ask.letter?, meant]
  refine .bind <| (ends_onActor ((ActorM.ends_deliver sound address hx).mono ?_ ?_))
  · intro _ a ⟨γ, hactor⟩
    refine .modify ?_
    rw [notify_eq]
    refine ⟨rfl, ⟨γ, ?_⟩, (Bool.or_false _).symm, ?_⟩
    · rw [hletters]
      exact hactor
    · rw [hletters]
      rfl
  · intro _ a ⟨_, γ, hactor⟩
    exact ⟨rfl, ⟨γ, hactor⟩, (Bool.or_false _).symm, rfl⟩

/-- Asking a process to end does so. -/
theorem touched_requestExit (sound : q.actor.Sound) {address : Pid}
    (meant : l.Addresses address q.pid) :
    Ends requestExit q (fun _ q' => q.Touched l [.kill address] q') fun _ q' =>
      q.Touched l [] q' := by
  obtain ⟨ρ, sound⟩ := sound
  exact .modify ⟨rfl, ⟨ρ, .of_equivalent sound⟩, by simp [Ask.kills, meant], rfl⟩

end Process

/-! ## One request -/

namespace ProcessTable

variable {t : ProcessTable} {listed : List (Pid × Place)} {log : List Nat} {q : Process}
    {address : Pid}

theorem slots_setOccupant {slot : Slot} (hslot : t.slots[t.layout.index address]? = some slot)
    (o : Occupant) :
    (t.setOccupant address o).slots[t.layout.index address]? =
    some { slot with occupant := o } := by
  rw [setOccupant, Array.getElem?_modify, if_pos rfl, hslot]
  rfl

theorem slots_setOccupant_of_ne {i : Nat} (h : t.layout.index address ≠ i) (o : Occupant) :
    (t.setOccupant address o).slots[i]? = t.slots[i]? := by
  rw [setOccupant, Array.getElem?_modify, if_neg h]

/-- A process at home is what its pid, or one that stands for the same, finds in the table. -/
theorem Tally.occupant_of_addresses (h : Tally listed log t) (hq : t.Lives q.pid q)
    (meant : t.layout.Addresses address q.pid) : t.occupant address = .resident q := by
  rw [← h.occupant_of_lives hq]
  unfold occupant
  rw [meant.1, meant.2]

/-- A process is reached only under a pid that stands for it. -/
theorem Tally.addresses_of_get? (h : Tally listed log t) (hget : t.get? address = some q) :
    t.layout.Addresses address q.pid := by
  have hoccupant := (get?_eq_some hget).1
  obtain ⟨-, hindex⟩ := h.exists_listed hoccupant
  refine ⟨hindex, ?_⟩
  unfold occupant at hoccupant
  split at hoccupant
  · cases hoccupant
  · rename_i slot hslot
    split at hoccupant
    · rename_i hgeneration
      rw [h.named _ slot q hslot hoccupant, h.generation_pidOf hslot, hgeneration]
    · cases hoccupant

/-- A process that is not reached stays as it is. -/
theorem lives_onProcess_of_ne (hq : t.Lives q.pid q)
    (hget : t.get? address ≠ some q) (m : EStateM Fault Process α) :
    (leaves (ProcessTable.onProcess address m) t).Lives q.pid q := by
  obtain ⟨i, slot, hslot, hresident, -⟩ := hq
  have others : ∀ (p : Process) (o o' : Occupant), t.get? address = some p →
      ((t.setOccupant address o).setOccupant address o').slots[i]? = some slot := by
    intro p o o' hp
    have hne : t.layout.index address ≠ i := by
      rintro rfl
      -- The slot of the one that is reached holds no other.
      obtain ⟨hoccupant, -⟩ := get?_eq_some hp
      unfold occupant at hoccupant
      rw [hslot] at hoccupant
      dsimp only at hoccupant
      split at hoccupant
      · rw [hresident] at hoccupant
        cases hoccupant
        exact hget hp
      · cases hoccupant
    exact (slots_setOccupant_of_ne (t := t.setOccupant address o) hne o').trans
      ((slots_setOccupant_of_ne hne o).trans hslot)
  unfold leaves ProcessTable.onProcess
  cases hp : t.get? address with
  | none => exact ⟨i, slot, hslot, hresident, rfl⟩
  | some p =>
    dsimp only
    cases m p <;> exact ⟨i, slot, others p _ _ hp, hresident, rfl⟩

/-- A process that is reached does what it is to do. -/
theorem lives_onProcess (hget : t.get? address = some q)
    {m : EStateM Fault Process α} (hm : (leaves m q).pid = q.pid) :
    (leaves (ProcessTable.onProcess address m) t).Lives q.pid (leaves m q) := by
  obtain ⟨hoccupant, -⟩ := get?_eq_some hget
  unfold occupant at hoccupant
  split at hoccupant
  · cases hoccupant
  · rename_i slot hslot
    split at hoccupant
    · have hslots : ∀ o o', ((t.setOccupant address o).setOccupant address o').slots[t.layout.index
          address]? = some ⟨slot.generation, o'⟩ := by
        intro o o'
        exact slots_setOccupant (slots_setOccupant hslot o) o'
      unfold leaves ProcessTable.onProcess
      unfold leaves at hm
      rw [hget]
      dsimp only
      cases hrun : m q with
      | ok x q' =>
        rw [hrun] at hm
        exact ⟨_, _, hslots _ _, rfl, hm⟩
      | error e q' =>
        rw [hrun] at hm
        exact ⟨_, _, hslots _ _, rfl, hm⟩
    · cases hoccupant

end ProcessTable

namespace ProcessTable

variable {t : ProcessTable} {listed : List (Pid × Place)} {log : List Nat} {q : Process}

/-- What reaches a process under a pid does to each process: `m` to the one that is meant, if it is
alive, and nothing to the others. -/
theorem touched_of_onProcess (tally : Tally listed log t) (sound : q.actor.Sound)
    (hq : t.Lives q.pid q) {ask : Ask} {address : Pid} {m : EStateM Fault Process Unit}
    (meant : t.layout.Addresses address q.pid →
      Ends m q (fun _ q' => q.Touched t.layout [ask] q') fun _ q' => q.Touched t.layout [] q')
    (spared : ¬t.layout.Addresses address q.pid → q.Touched t.layout [ask] q) :
    ∃ q', (leaves (onProcess address m) t).Lives q.pid q' ∧
      q.Touched t.layout (ask.grantedBy (onProcess address m t)) q' := by
  have nothing : q.Touched t.layout [] q := .refl sound rfl rfl
  by_cases hget : t.get? address = some q
  · have hm := meant (tally.addresses_of_get? hget)
    unfold Ends at hm
    refine ⟨leaves m q, lives_onProcess hget ?_, ?_⟩
    · unfold leaves
      cases hrun : m q with
      | ok _ q' => rw [hrun] at hm; exact hm.pid
      | error e q' => rw [hrun] at hm; exact hm.pid
    · unfold leaves
      cases hrun : m q with
      | ok _ q' =>
        rw [hrun] at hm
        simp only [onProcess, hget, hrun]
        exact hm
      | error e q' =>
        rw [hrun] at hm
        simp only [onProcess, hget, hrun]
        exact hm
  · refine ⟨q, lives_onProcess_of_ne hq hget m, ?_⟩
    by_cases hmeant : t.layout.Addresses address q.pid
    · -- The process is dead, and so the request is refused.
      have hnone : t.get? address = none := by
        unfold get? at hget ⊢
        rw [tally.occupant_of_addresses hq hmeant] at hget ⊢
        unfold Occupant.process? at hget ⊢
        dsimp only at hget ⊢
        split
        · rfl
        · rename_i halive
          exact absurd (if_neg halive) hget
      rw [onProcess_of_get?_eq_none hnone]
      exact nothing
    · cases onProcess address m t with
      | ok _ t' => exact spared hmeant
      | error e t' => exact nothing

/-- A new process gets a slot that has held none. -/
theorem Tally.lives_spawn {pid : Pid} {callee : Value} {args : List Value} {source : Option Heap}
    {t' : ProcessTable} (h : Tally listed log t)
    (run : ProcessTable.spawn callee args source t = .ok pid t')
    {pid' : Pid} (hq : t.Lives pid' q) : t'.Lives pid' q := by
  obtain ⟨actor, -, hstarted, -⟩ := h.started_of_spawn run
  obtain ⟨i, slot, hslot, hresident, hpid⟩ := hq
  have hne : i ≠ t.layout.index pid := by
    rintro rfl
    have hvacant := hstarted.vacant slot hslot
    rw [hresident] at hvacant
    cases hvacant
  exact ⟨i, slot, by rw [hstarted.slots, if_neg hne, hslot], hresident, hpid⟩

end ProcessTable

namespace Dispatch

variable {listed : List (Pid × Place)} {log : List Nat} {d : Dispatch} {q : Process}

/-- What a request that reaches a process under a pid does to each process. -/
theorem touched_of_onProcess (tally : Tally listed log d.table) (sound : q.actor.Sound)
    (hq : d.table.Lives q.pid q) {ask : Ask} {address : Pid} {m : EStateM Fault Process Unit}
    (hperform : ask.perform d =
      EStateM.map (fun _ => none) (onTable (ProcessTable.onProcess address m)) d)
    (meant : d.table.layout.Addresses address q.pid →
      Ends m q (fun _ q' => q.Touched d.table.layout [ask] q') fun _ q' =>
        q.Touched d.table.layout [] q')
    (spared : ¬d.table.layout.Addresses address q.pid → q.Touched d.table.layout [ask] q) :
    ∃ q', (leaves ask.perform d).table.Lives q.pid q' ∧
      q.Touched d.table.layout (ask.granted d) q' := by
  obtain ⟨q', hlives, htouched⟩ := ProcessTable.touched_of_onProcess tally sound hq meant spared
  have hleaves : (leaves ask.perform d).table =
      leaves (ProcessTable.onProcess address m) d.table := by
    unfold leaves
    rw [hperform]
    unfold EStateM.map onTable
    dsimp only
    cases ProcessTable.onProcess address m d.table <;> rfl
  have hgranted : ask.granted d = ask.grantedBy (ProcessTable.onProcess address m d.table) := by
    unfold Ask.granted
    rw [hperform]
    unfold EStateM.map onTable
    dsimp only
    cases ProcessTable.onProcess address m d.table <;> rfl
  rw [hleaves, hgranted]
  exact ⟨q', hlives, htouched⟩

/-- What one request does to each process. -/
theorem touched_of_perform (tally : Tally listed log d.table) (sound : q.actor.Sound)
    (hq : d.table.Lives q.pid q) {ask : Ask} (hask : ask.Matched ask) :
    ∃ q', (leaves ask.perform d).table.Lives q.pid q' ∧
      q.Touched d.table.layout (ask.granted d) q' := by
  cases hask with
  | @send σ source _ message _ target iso hmessage =>
    have hx : Letter.Sound ⟨message, source⟩ := ⟨σ, iso, hmessage⟩
    refine touched_of_onProcess tally sound hq rfl
      (fun meant => Process.touched_deliver sound hx meant)
      fun spared => .refl sound ?_ rfl
    simp [letters, Ask.letter?, spared]
  | kill target =>
    refine touched_of_onProcess tally sound hq rfl
      (fun meant => Process.touched_requestExit sound meant)
      fun spared => .refl sound rfl ?_
    simp [Ask.kills, spared]
  | @spawn σ source _ callee _ args _ iso hcallee hargs =>
    have hleaves : leaves (Ask.spawn callee args source).perform d =
        leaves (Kernel.spawn callee args source) d := by
      have hperform : (Ask.spawn callee args source).perform d =
          EStateM.map some (Kernel.spawn callee args source) d := rfl
      unfold leaves
      rw [hperform, EStateM.map]
      cases (Kernel.spawn callee args source : EStateM Fault Dispatch Pid) d <;> rfl
    have htouched : q.Touched d.table.layout ((Ask.spawn callee args source).granted d) q := by
      unfold Ask.granted
      cases (Ask.spawn callee args source).perform d with
      | ok pid? d' => exact .refl sound rfl rfl
      | error e d' => exact .refl sound rfl rfl
    refine ⟨q, ?_, htouched⟩
    rw [hleaves]
    cases hspawn : ProcessTable.spawn callee args (some source) d.table with
    | error e t =>
      rw [leaves_spawn_error hspawn]
      exact hq
    | ok pid t =>
      rw [leaves_spawn_ok hspawn]
      exact tally.lives_spawn hspawn hq

end Dispatch

/-! ## A turn -/

namespace Session

variable {κ : Type} [Kernel κ] {l : Loader}

/-- What is asked for in the next step and granted. -/
def granted (l : Loader) (s : Session κ) : List Ask :=
  match s.ask? l with
  | some q => q.granted s.kernel
  | none => []

/-- What is asked for in a run and granted, in order. -/
def grants (l : Loader) (s : Session κ) : (bound : Nat) → List Ask
  | 0 => []
  | bound + 1 =>
    match s.next l with
    | .inl _ => s.granted l
    | .inr s' => s.granted l ++ s'.grants l bound

/-- What is known of a running process and of the others. -/
structure Orderly (s : Session Dispatch) : Prop where
  sound : s.Equivalent Dispatch.Equivalent s
  tally : ∃ listed log, Tally listed log s.kernel.table

theorem Orderly.sound_of_lives {s : Session Dispatch} (h : s.Orderly) {q : Process} {pid : Pid}
    (hq : s.kernel.table.Lives pid q) : q.actor.Sound := by
  obtain ⟨i, slot, hslot, hresident, -⟩ := hq
  exact ProcessTable.equivalent_self_iff.mp h.sound.kernel.table i slot q hslot hresident

theorem Orderly.next {s : Session Dispatch} (inline : l.Inline) (h : s.Orderly) :
    (world (s.next l)).table.layout = s.kernel.table.layout ∧
    Sum.elim (fun finished => finished.2.Orderly) (fun s' => s'.Orderly) (s.next l) := by
  obtain ⟨sound, listed, log, tally⟩ := h
  have hsound := equivalent_next inline sound
  have hnaming := upholds_next (l := l)
    (Dispatch.upholds_naming log s.kernel.table.naming s.kernel.current)
    (s := s) ⟨⟨listed, tally⟩, rfl, rfl⟩
  cases hnext : s.next l with
  | inl finished =>
    rw [hnext] at hsound hnaming
    obtain ⟨⟨listed', tally'⟩, hnaming, -⟩ := hnaming
    exact ⟨congrArg Prod.fst hnaming, hsound, listed', log, tally'⟩
  | inr s' =>
    rw [hnext] at hsound hnaming
    obtain ⟨⟨listed', tally'⟩, hnaming, -⟩ := hnaming
    exact ⟨congrArg Prod.fst hnaming, hsound, listed', log, tally'⟩

theorem Orderly.run {s s' : Session Dispatch} {bound : Nat} {outcome : Outcome} (inline : l.Inline)
    (h : s.Orderly) (run : s.run l bound = some (outcome, s')) :
    s'.kernel.table.layout = s.kernel.table.layout ∧ s'.Orderly := by
  induction bound generalizing s with
  | zero => cases run
  | succ bound ih =>
    obtain ⟨hlayout, hnext⟩ := h.next inline
    rw [Session.run] at run
    cases heq : s.next l with
    | inl finished =>
      rw [heq] at run hnext hlayout
      cases run
      exact ⟨hlayout, hnext⟩
    | inr t =>
      rw [heq] at run hnext hlayout
      obtain ⟨hlayout', h'⟩ := ih hnext run
      exact ⟨hlayout'.trans hlayout, h'⟩

/-- What a step does to each of the others. -/
theorem touched_of_next {s : Session Dispatch} (inline : l.Inline) (h : s.Orderly) {q : Process}
    (hq : s.kernel.table.Lives q.pid q) :
    ∃ q', (world (s.next l)).table.Lives q.pid q' ∧
      q.Touched s.kernel.table.layout (s.granted l) q' := by
  have sound := h.sound_of_lives hq
  obtain ⟨listed, log, tally⟩ := h.tally
  have hask := matched_ask? inline h.sound.actor
  rw [world_next]
  unfold granted answer
  cases hq? : s.ask? l with
  | none => exact ⟨q, hq, .refl sound rfl rfl⟩
  | some ask =>
    rw [hq?] at hask
    cases hask with
    | some hask => exact Dispatch.touched_of_perform tally sound hq hask

/-- What a run does to each of the others. -/
theorem touched_of_run {s s' : Session Dispatch} {bound : Nat} {outcome : Outcome}
    (inline : l.Inline) (h : s.Orderly) (run : s.run l bound = some (outcome, s')) {q : Process}
    (hq : s.kernel.table.Lives q.pid q) :
    ∃ q', s'.kernel.table.Lives q.pid q' ∧
      q.Touched s.kernel.table.layout (s.grants l bound) q' := by
  induction bound generalizing s q with
  | zero => cases run
  | succ bound ih =>
    obtain ⟨q', hq', htouched⟩ := touched_of_next inline h hq
    obtain ⟨hlayout, hnext⟩ := h.next inline
    rw [Session.run] at run
    unfold grants
    cases heq : s.next l with
    | inl finished =>
      rw [heq] at run hq'
      cases run
      exact ⟨q', hq', htouched⟩
    | inr t =>
      rw [heq] at run hq' hnext hlayout
      have hlayout : t.kernel.table.layout = s.kernel.table.layout := hlayout
      have hpid := htouched.pid
      rw [← hpid] at hq'
      obtain ⟨q'', hq'', htouched'⟩ := ih hnext run hq'
      rw [hlayout] at htouched'
      rw [hpid] at hq''
      exact ⟨q'', hq'', htouched.trans htouched'⟩

end Session

end ActorMachine
