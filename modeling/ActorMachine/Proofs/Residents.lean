import ActorMachine.Proofs.Queues

/-!
# What holds of every process

A property that processes have when they are started, and that deliveries, requests to end and being
made ready do not take from them (`Process.Lasting`), is had at every moment by all processes that
are at home, if it is had by those whose turns end.
-/

namespace ActorMachine

/-- A property of processes that they are started with, and that others cannot take from them. -/
structure Process.Lasting (P : Process → Prop) : Prop where
  started : ∀ {config : ActorConfig} {callee : Value} {args : List Value} {source : Option Heap}
    {actor : Actor} (pid : Pid),
    ActorM.prepareEntry callee args source (Actor.create config) = .ok () actor →
    P ⟨pid, actor, .pending, false⟩
  deliver : ∀ {p : Process} (address : Pid) (source : Option Heap) (message : Value), P p →
    P (leaves (Process.deliver address source message) p)
  deliverBytes : ∀ {p : Process} (address : Pid) (bytes : ByteArray), P p →
    P (leaves (Process.deliverBytes address bytes) p)
  requestExit : ∀ {p : Process}, P p → P { p with exitRequested := true }
  makeReady : ∀ {p : Process}, P p → P { p with state := .running }

namespace ProcessTable

/-- Every process that is at home has the property. -/
def Each (P : Process → Prop) (t : ProcessTable) : Prop :=
  ∀ (i : Nat) (slot : Slot) (p : Process), t.slots[i]? = some slot →
    slot.occupant = .resident p → P p

namespace Each

variable {P : Process → Prop} {t : ProcessTable}

theorem of_occupant (h : t.Each P) {pid : Pid} {p : Process} (hp : t.occupant pid = .resident p) :
    P p := by
  unfold occupant at hp
  split at hp
  · cases hp
  · rename_i slot hslot
    split at hp
    · exact h _ slot p hslot hp
    · cases hp

/-- A slot gets another occupant, and those in the other slots have the property. -/
theorem setOccupant_of_others {pid : Pid} {o : Occupant}
    (others : ∀ (i : Nat) (slot : Slot) (p : Process), t.slots[i]? = some slot →
      slot.occupant = .resident p → t.layout.index pid ≠ i → P p)
    (ho : ∀ p, o = .resident p → P p) : (t.setOccupant pid o).Each P := by
  intro i slot p hi hp
  have hi : (t.slots.modify (t.layout.index pid) fun slot => { slot with occupant := o })[i]? =
      some slot := hi
  rw [Array.getElem?_modify] at hi
  by_cases heq : t.layout.index pid = i
  · rw [if_pos heq] at hi
    obtain ⟨slot', -, rfl⟩ := Option.map_eq_some_iff.mp hi
    exact ho p hp
  · rw [if_neg heq] at hi
    exact others i slot p hi hp heq

/-- A slot gets another occupant. -/
theorem setOccupant (h : t.Each P) (pid : Pid) {o : Occupant} (ho : ∀ p, o = .resident p → P p) :
    (t.setOccupant pid o).Each P :=
  setOccupant_of_others (fun i slot p hi hp _ => h i slot p hi hp) ho

/-- A process is taken away to be run. -/
theorem checkout? (h : t.Each P) {pid : Pid} {p : Process} {t' : ProcessTable}
    (run : t.checkout? pid = some (p, t')) : P p ∧ t'.Each P := by
  unfold ProcessTable.checkout? at run
  split at run
  · rename_i hoccupant
    cases run
    exact ⟨h.of_occupant hoccupant, h.setOccupant pid nofun⟩
  · cases run

theorem release (h : t.Each P) (pid : Pid) : (t.release pid).Each P := by
  unfold ProcessTable.release
  split
  · exact h
  · intro i slot p hi hp
    dsimp only at hi
    rw [Array.getElem?_modify] at hi
    by_cases heq : t.layout.index pid = i
    · rw [if_pos heq] at hi
      obtain ⟨slot', -, rfl⟩ := Option.map_eq_some_iff.mp hi
      cases hp
    · rw [if_neg heq] at hi
      exact h i slot p hi hp

theorem releases (h : t.Each P) (dead : List Pid) : (dead.foldl ProcessTable.release t).Each P := by
  induction dead generalizing t with
  | nil => exact h
  | cons pid dead ih => exact ih (h.release pid)

/-- A process is reached. -/
theorem onProcess {m : EStateM Fault Process α} (h : t.Each P) (address : Pid)
    (hm : ∀ p, P p → P (leaves m p)) : (leaves (ProcessTable.onProcess address m) t).Each P := by
  unfold leaves ProcessTable.onProcess
  cases hget : t.get? address with
  | none => exact h
  | some p =>
    have hp := hm p (h.of_occupant (get?_eq_some hget).1)
    unfold leaves at hp
    dsimp only
    have haway := h.setOccupant address (o := .away) nofun
    cases hrun : m p with
    | ok x q =>
      rw [hrun] at hp
      exact haway.setOccupant address (by rintro _ ⟨⟩; exact hp)
    | error e q =>
      rw [hrun] at hp
      exact haway.setOccupant address (by rintro _ ⟨⟩; exact hp)

/-- A process is started, and has the property at first. -/
theorem spawn {callee : Value} {args : List Value} {source : Option Heap} {pid : Pid}
    {t' : ProcessTable} (h : t.Each P)
    (started : ∀ {actor : Actor} (pid : Pid),
      ActorM.prepareEntry callee args source (Actor.create t.config) = .ok () actor →
      P ⟨pid, actor, .pending, false⟩)
    (run : ProcessTable.spawn callee args source t = .ok pid t') : t'.Each P := by
  obtain ⟨actor, i, t₁, prepared, htake, rfl, rfl⟩ := exists_of_spawn run
  have h₁ : t₁.Each P := by
    unfold takeSlot at htake
    split at htake
    · cases htake
      intro j slot p hj hp
      dsimp only at hj
      rw [Array.getElem?_push] at hj
      split at hj
      · cases hj
        cases hp
      · exact h j slot p hj hp
    · split at htake
      · cases htake
      · cases htake
        exact h
  exact h₁.setOccupant _ (by rintro _ ⟨⟩; exact started _ prepared)

end Each

end ProcessTable

namespace Dispatch

/-- Whatever a running process asks of the others, they keep their property. -/
theorem upholds_each {P : Process → Prop} (lasting : Process.Lasting P) :
    Kernel.Upholds fun d : Dispatch => d.table.Each P where
  send {d} target message source h := by
    rw [leaves_send]
    exact h.onProcess target fun p => lasting.deliver target (some source) message
  spawn {d} callee args source h := by
    cases hspawn : ProcessTable.spawn callee args (some source) d.table with
    | error e t =>
      rw [leaves_spawn_error hspawn]
      exact h
    | ok pid t =>
      rw [leaves_spawn_ok hspawn]
      exact h.spawn lasting.started hspawn
  kill {d} target h := by
    rw [leaves_kill]
    exact h.onProcess target fun p => lasting.requestExit

end Dispatch

namespace Scheduler

variable {P : Process → Prop} {s : Scheduler}

theorem each_makeReady (ready : ∀ {p : Process}, P p → P { p with state := .running })
    (h : s.table.Each P) {pid : Pid}
    {process : Process} (hget : s.table.get? pid = some process) :
    (s.makeReady pid process).table.Each P :=
  h.setOccupant pid (by
    rintro _ ⟨⟩
    exact ready (h.of_occupant (ProcessTable.get?_eq_some hget).1))

theorem each_admitPending (ready : ∀ {p : Process}, P p → P { p with state := .running })
    (h : s.table.Each P) :
    s.admitPending.table.Each P := by
  rw [admitPending_eq]
  refine List.foldlRecOn (motive := fun s : Scheduler => s.table.Each P) _ _ h fun s h pid _ => ?_
  unfold admitProcess
  split
  · exact h
  · rename_i process hget
    exact each_makeReady ready h hget

theorem each_wakeReady (ready : ∀ {p : Process}, P p → P { p with state := .running })
    (h : s.table.Each P) :
    s.wakeReady.table.Each P := by
  rw [wakeReady_eq]
  refine List.foldlRecOn (motive := fun s : Scheduler => s.table.Each P) _ _ h fun s h pid _ => ?_
  unfold wake
  split
  · exact h
  · rename_i process hget
    split
    · exact each_makeReady ready h hget
    · exact h

/-- What is asked for starts processes that have the property, and reaches others without taking it
from them. -/
theorem each_ask_of (h : s.table.Each P) (r : Request)
    (started : ∀ {callee args}, r.start? s.loader = some (callee, args) → ∀ {values source},
      stageArgs args = .ok (values, source) → ∀ {actor : Actor} (pid : Pid),
      ActorM.prepareEntry callee values source (Actor.create s.table.config) = .ok () actor →
      P ⟨pid, actor, .pending, false⟩)
    (reached : ∀ {target m}, r.reach? = some (target, m) → ∀ p, P p → P (leaves m p)) :
    (s.ask r).table.Each P := by
  have met := s.meets_ask r
  generalize s.ask r = s' at met ⊢
  cases met with
  | refuses => exact h
  | starts start staged spawned => exact h.spawn (started start staged) spawned
  | reaches reach => exact h.onProcess _ (reached reach)
  | advances => exact h
  | learns => exact h

theorem each_ask (lasting : Process.Lasting P) (h : s.table.Each P) (r : Request) :
    (s.ask r).table.Each P := by
  refine each_ask_of h r (fun _ _ _ _ _ pid prepared => lasting.started pid prepared) ?_
  intro target m hreach p hp
  cases r with
  | send target v =>
    cases hreach
    exact lasting.deliver target none v hp
  | sendText target text =>
    cases hreach
    exact lasting.deliverBytes target text.toUTF8 hp
  | kill target =>
    cases hreach
    exact lasting.requestExit hp
  | _ => cases hreach

theorem loader_create {config : Config} {loader : Loader} (run : create config loader = .ok s) :
    s.loader = loader := by
  obtain ⟨layout, -, hs⟩ := exists_of_bind_ok run
  cases hs
  rfl

/-- A system is created without processes. -/
theorem each_create {config : Config} {loader : Loader} (run : create config loader = .ok s) :
    s.table.Each P := by
  obtain ⟨layout, -, hs⟩ := exists_of_bind_ok run
  cases hs
  intro i slot p hi
  have hi : (#[] : Array Slot)[i]? = some slot := hi
  rw [Array.getElem?_empty] at hi
  cases hi

theorem each_created (created : s.Created) : s.table.Each P := by
  obtain ⟨config, loader, -, run⟩ := created
  exact each_create run

end Scheduler

namespace Moment

variable {P : Process → Prop} {m : Moment}

/-- The process whose turn ends comes home. -/
theorem each_endTurn {ready : List Pid} {s : Scheduler} {pid : Pid} {p : Process}
    {outcome : Outcome} {session : Session Dispatch} (h : session.kernel.table.Each P)
    (hp : P { p with actor := session.actor, state := (s.endTurn pid outcome).1 }) :
    (endTurn ready s pid p outcome session).table.Each P := by
  unfold endTurn
  generalize s.endTurn pid outcome = ended at hp
  obtain ⟨state, s'⟩ := ended
  have hhome : (session.kernel.table.checkin { p with actor := session.actor, state }).Each P :=
    h.setOccupant _ (by rintro _ ⟨⟩; exact hp)
  cases state <;> exact hhome

/-- What a process keeps through its turns and between them, the processes at home have at every
moment. -/
theorem each_of_reachable (lasting : Process.Lasting P)
    (ended : ∀ (l : Loader) (s : Scheduler) (pid : Pid) (p : Process)
      (session session' : Session Dispatch)
      (outcome : Outcome), p.exitRequested = true ∧ outcome = .ok .exit ∧ session' = session ∨
        session.next l = .inl (outcome, session') →
      P { p with actor := session'.actor, state := (s.endTurn pid outcome).1 })
    (h : m.Reachable) : m.table.Each P := by
  refine Reachable.induction (P := fun m => m.table.Each P) (fun s => Scheduler.each_created)
    (fun s r h => Scheduler.each_ask lasting h r) (fun m h => ?_)
      (fun m _ h => by cases m <;> exact h) h
  cases m with
  | rest s => exact Scheduler.each_admitPending lasting.makeReady h
  | between ready s =>
    cases ready with
    | nil => exact (Scheduler.each_wakeReady lasting.makeReady h).releases _
    | cons pid ready =>
      rw [Moment.go]
      cases hout : s.table.checkout? pid with
      | none => exact h
      | some found => exact (ProcessTable.Each.checkout? h hout).2
  | turn ready s pid p session =>
    rw [Moment.go]
    split
    · rename_i hexit
      exact each_endTurn h (ended s.loader s pid p session session _ (.inl ⟨hexit, rfl, rfl⟩))
    · have hnext := Session.upholds_next (l := s.loader) (Dispatch.upholds_each lasting) h
      split
      · rename_i outcome session' heq
        rw [heq] at hnext
        exact each_endTurn hnext (ended s.loader s pid p session session' _ (.inr heq))
      · rename_i session' heq
        rw [heq] at hnext
        exact hnext

end Moment

end ActorMachine
