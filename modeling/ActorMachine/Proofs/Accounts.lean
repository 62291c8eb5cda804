import Mathlib
import ActorMachine.Proofs.Handing

/-!
# Accounts of processes

The account of the mailbox of a process goes on as the system does. What is sent to the process and
granted is posted in it, and so is what the process does itself when it has its turn
(`Moment.posted`). From the start of the process until it is released its mailbox agrees with the
account, and does in each step of its turns what the account says (`Moment.accounted_after`).
-/

namespace ActorMachine

open Memory
open ProcessTable (Tally)
open Ask (letters)

/-- An actor whose mailbox agrees with its account, whatever the actor holds. -/
def Actor.Booked (L : Ledger) (a : Actor) : Prop :=
  a.Follows (fun _ => True) L

/-- Where nothing is asked for, every loader will do. -/
theorem Loader.Inline.backs {l : Loader} (inline : l.Inline) : l.Backs (fun _ => True) True where
  inline := inline
  imports _ _ _ := .of_forall fun _ => trivial
  nested _ _ _ := trivial
  function _ _ := trivial
  native _ _ := trivial

/-- What has been copied was in its heap. -/
theorem Copies.sound {m : Memory} {P Q : Shape → Ref → Prop} {letters : List Letter}
    {values : Array Value} (h : Copies m P Q letters values) : ∀ x ∈ letters, x.Sound := by
  induction h with
  | nil => exact nofun
  | @snoc Q letters values σ x v before iso copy apart ih =>
    intro y hy
    cases List.mem_append.mp hy with
    | inl hbefore => exact ih y hbefore
    | inr hlast =>
      obtain rfl := List.mem_singleton.mp hlast
      exact ⟨σ.comp σ.inverse, iso.trans iso.symm, copy.trans copy.symm⟩

namespace Actor.Booked

variable {L : Ledger} {a b : Actor}

/-- What a process receives while it does not have its turn goes to the end of its account. -/
theorem receive {γ : Matching} {xs : List Letter} (h : a.Booked L) (received : a.Receives γ xs b)
    (own : b.Sound) : b.Booked (L.posts (xs.map .sent)) := by
  obtain ⟨ρ, own⟩ := own
  obtain ⟨old, copies, taken, -, -, hcopies⟩ := received.mailbox
  exact Actor.Follows.receive h received
    (fun x hx => (hcopies.sound x hx).vouched fun _ => trivial) own.left

/-- What a process does in its next step is posted. -/
theorem next {l : Loader} {s : Session Dispatch} (h : s.actor.Booked L) (inline : l.Inline)
    (fits : s.actor.outline.Fits l) :
    Sum.elim (fun finished : Outcome × Session Dispatch =>
      finished.2.actor.Booked (L.posts (s.posts l)))
      (fun s' => s'.actor.Booked (L.posts (s.posts l))) (s.next l) := by
  have hnext := Session.follows_next .of_lax inline.backs fits (W := fun _ => True) ⟨h, trivial⟩
  exact Session.next_mono (P := fun t =>
    t.Follows (fun _ => True) (fun _ => True) (L.posts (s.posts l)))
    (Q := fun t => t.actor.Booked (L.posts (s.posts l))) hnext fun _ h' => h'.actor

/-- A process that has been started has been sent nothing. -/
theorem of_prepareEntry {config : ActorConfig} {callee : Value} {args : List Value}
    {source : Option Heap} (handed : Handed (fun _ => True) source args)
    (run : ActorM.prepareEntry callee args source (Actor.create config) = .ok () a) :
    a.Booked .empty :=
  Actor.follows_of_prepareEntry (fun _ => trivial) handed run

end Actor.Booked

namespace ProcessTable.Tally

variable {t t' : ProcessTable} {listed : List (Pid × Place)} {log : List Nat}

/-- A process that has been started is at home. -/
theorem exists_lives_of_spawn {callee : Value} {args : List Value} {source : Option Heap}
    {pid : Pid} (h : Tally listed log t)
    (run : ProcessTable.spawn callee args source t = .ok pid t') :
    ∃ q config, t'.Lives pid q ∧
      ActorM.prepareEntry callee args source (Actor.create config) = .ok () q.actor := by
  obtain ⟨actor, prepared, started, -⟩ := h.started_of_spawn run
  have hslot := started.slots (t.layout.index pid)
  rw [if_pos rfl] at hslot
  exact ⟨_, t.config, ⟨_, _, hslot, rfl, rfl⟩, prepared⟩

end ProcessTable.Tally

namespace Moment

open Scheduler

variable {m : Moment} {s : Scheduler} {p pid : Pid} {ready : List Pid} {process q : Process}
  {session : Session Dispatch} {L : Ledger} {a : Act}

/-- What an act posts in the account of the mailbox of a process: what the process does itself if it
has its turn, and else the letters to it that are granted. -/
def posted (p : Pid) (m : Moment) (a : Act) : List Post :=
  match m, a with
  | turn _ s pid process session, .go =>
    if pid = p then
      if process.exitRequested then [] else session.posts s.loader
    else (letters m.table.layout p (m.granted a)).map .sent
  | _, _ => (letters m.table.layout p (m.granted a)).map .sent

theorem posted_of_home
    (home : ∀ ready s process session, m = turn ready s p process session → a ≠ .go) :
    m.posted p a = (letters m.table.layout p (m.granted a)).map .sent := by
  cases m with
  | rest | between => rfl
  | turn ready s pid process session =>
    cases a with
    | ask | elapse => rfl
    | go =>
      refine if_neg ?_
      rintro rfl
      exact home _ _ _ _ rfl rfl

/-- The mailbox of a process agrees with an account, whether the process is at home or has its
turn. -/
inductive Booked (p : Pid) (L : Ledger) : Moment → Prop
  | home {m : Moment} {q : Process} (lives : m.table.Lives p q)
    (booked : q.actor.Booked L) : Booked p L m
  | running {ready : List Pid} {s : Scheduler} {process : Process} {session : Session Dispatch}
    (booked : session.actor.Booked L) : Booked p L (turn ready s p process session)

/-! ## Acts -/

/-- A process that is at home goes on agreeing with its account until it is released. -/
theorem Booked.act_home (reachable : m.Reachable) (hq : m.table.Lives q.pid q)
    (h : q.actor.Booked L)
    (kept : m.table.layout.index q.pid ∉ m.released a) :
    (m.act a).Booked q.pid (L.posts (m.posted q.pid a)) := by
  have home : ∀ ready s process session, m = turn ready s q.pid process session → a ≠ .go := by
    rintro ready s process session rfl
    obtain ⟨log, tally⟩ := reachable.exists_tally
    have haway := tally.place_unique (tally.place_of_lives hq) List.mem_cons_self
    cases hstate : q.state <;> rw [hstate] at haway <;> cases haway
  have quiet : (letters m.table.layout q.pid (m.granted a)).map Post.sent = [] →
    ∀ q', q'.actor = q.actor →
      (m.act a).table.Lives q.pid q' → (m.act a).Booked q.pid (L.posts (m.posted q.pid a)) := by
    intro hnone q' hactor hlives
    rw [posted_of_home home, hnone]
    exact .home hlives (hactor ▸ h)
  cases fate reachable hq a with
  | @touched q' unclosed lives touched =>
    obtain ⟨γ, received⟩ := touched.actor
    rw [posted_of_home home]
    exact .home lives (h.receive received ((reachable.act a).sound_of_lives lives))
  | admitted hm ha lives =>
    subst hm ha
    refine quiet rfl _ ?_ lives
    unfold Process.admitted
    split <;> rfl
  | called hm ha hgo =>
    subst hm ha
    rw [posted_of_home home, hgo]
    exact .running h
  | looked hm ha alive lives =>
    subst hm ha
    refine quiet rfl _ ?_ lives
    unfold Process.looked
    split <;> rfl
  | released hm ha hdead hmem =>
    subst hm ha
    exact absurd (List.mem_map_of_mem hmem) kept

/-- A process that has its turn agrees with its account after each step of it. -/
theorem Booked.act_turn (reachable : (turn ready s p process session).Reachable)
    (h : session.actor.Booked L) (a : Act) :
    ((turn ready s p process session).act a).Booked p
      (L.posts ((turn ready s p process session).posted p a)) := by
  cases a with
  | ask | elapse => exact .running h
  | go =>
    have hposted : (turn ready s p process session).posted p .go =
        if process.exitRequested then [] else session.posts s.loader := if_pos rfl
    obtain ⟨orderly, rfl, -⟩ := reachable.session_orderly
    have hnext := h.next (l := s.loader) (sound_of_reachable reachable).built.inline
      ((fits_of_reachable reachable).session session rfl)
    rw [hposted]
    rcases go_turn_cases reachable with ⟨hexit, hgo⟩ | ⟨hstays, session', log, hkernel, tally, hgo⟩
    · obtain ⟨log, tally⟩ := reachable.exists_tally
      rw [act, hgo, if_pos hexit]
      exact .home (lives_endTurn tally List.mem_cons_self).1 h
    · rw [act, if_neg (by rw [hstays]; exact Bool.false_ne_true)]
      rcases hgo with ⟨heq, hgo⟩ | ⟨outcome, heq, hgo⟩
      · rw [heq] at hnext
        rw [hgo]
        exact .running hnext
      · rw [heq] at hnext
        rw [hgo]
        exact .home (lives_endTurn tally List.mem_cons_self).1 hnext

theorem Booked.act (reachable : m.Reachable) (h : m.Booked p L)
    (kept : m.table.layout.index p ∉ m.released a) :
    (m.act a).Booked p (L.posts (m.posted p a)) := by
  cases h with
  | home lives booked =>
    obtain rfl := lives.pid_eq
    exact .act_home reachable lives booked kept
  | running booked => exact .act_turn reachable booked a

/-- From then on a process agrees with its account until it is released. -/
theorem Booked.after (reachable : m.Reachable) (h : m.Booked p L) (acts : List Act)
    (kept : m.table.layout.index p ∉ m.trace released acts) :
    (m.after acts).Booked p (L.posts (m.trace (posted p) acts)) := by
  induction acts generalizing m L with
  | nil => exact h
  | cons a acts ih =>
    rw [trace, List.mem_append, not_or] at kept
    rw [trace, Ledger.posts_append]
    refine ih (reachable.act a) (.act reachable h kept.1) ?_
    have hlayout : (m.act a).table.layout = m.table.layout := reachable.layout_after [a]
    rw [hlayout]
    exact kept.2

/-! ## Starts -/

/-- A process that has been started is at home, and has been sent nothing. -/
theorem Booked.of_started (reachable : m.Reachable) (hp : p ∈ m.started a) :
    (m.act a).Booked p .empty := by
  obtain ⟨log, tally⟩ := reachable.exists_tally
  cases m with
  | rest s =>
    cases a with
    | go | elapse => cases hp
    | ask r =>
      obtain ⟨callee, args, values, source, table, staged, spawned, hask⟩ :=
        exists_spawn_of_started hp
      obtain ⟨q, config, hlives, prepared⟩ := tally.exists_lives_of_spawn spawned
      have handed := handed_of_stageArgs (fun arg _ => .of_forall (fun _ => trivial) arg) staged
      show (rest (s.ask r)).Booked p .empty
      rw [hask]
      exact .home hlives (.of_prepareEntry handed prepared)
  | between ready s => cases a <;> cases hp
  | turn ready s pid process session =>
    cases a with
    | ask | elapse => cases hp
    | go =>
      rw [Moment.started] at hp
      split at hp
      · cases hp
      · rename_i hstays
        obtain ⟨q, hask, hstarts⟩ := Option.bind_eq_some_iff.mp (Option.mem_toList.mp hp)
        obtain ⟨callee, args, source, t, rfl, hspawn⟩ := Dispatch.spawn_of_starts? hstarts
        obtain ⟨q, config, hlives, prepared⟩ := tally.exists_lives_of_spawn hspawn
        obtain ⟨orderly, rfl, -⟩ := reachable.session_orderly
        -- What is asked for is about values that are in the heap of the process that asks.
        have hmatched := Session.matched_ask? (sound_of_reachable reachable).built.inline
          orderly.sound.actor (l := s.loader)
        rw [hask] at hmatched
        have handed : Handed (fun _ => True) (some source) args := by
          cases hmatched with
          | some hmatched =>
            cases hmatched with
            | spawn iso hcallee hargs =>
              refine .some fun v hv => Letter.Sound.vouched ⟨_, iso, hargs.of_mem v hv⟩
                fun _ => trivial
        have hworld : (Session.world (session.next s.loader)).table = t := by
          rw [Session.world_next, hask]
          show (leaves (Ask.spawn callee args source).perform session.kernel).table = t
          unfold leaves
          rw [Dispatch.perform_spawn, hspawn]
        have hbooked := Actor.Booked.of_prepareEntry handed prepared
        rcases go_turn_cases reachable with ⟨hexit, -⟩ | ⟨-, session', log', hkernel, tally', hgo⟩
        · exact absurd hexit hstays
        · rw [← hkernel] at hworld
          rw [← hworld] at hlives
          obtain rfl := hlives.pid_eq
          rcases hgo with ⟨-, hgo⟩ | ⟨outcome, -, hgo⟩
          · refine .home ?_ hbooked
            rw [Moment.act, hgo]
            exact hlives
          · refine .home ?_ hbooked
            rw [Moment.act, hgo]
            exact (lives_endTurn tally' List.mem_cons_self).2 q hlives

/-- The mailbox of a process agrees with its account at a moment, and if the process has its turn it
does in the next step what the account says. -/
inductive Accounted (p : Pid) (L : Ledger) : Moment → Prop
  | home {m : Moment} {q : Process} (lives : m.table.Lives p q) (records : L.Records q.actor) :
    Accounted p L m
  | running {ready : List Pid} {s : Scheduler} {process : Process} {session : Session Dispatch}
    (records : L.Records session.actor) (heeds : session.Heeds s.loader L) :
    Accounted p L (turn ready s p process session)

theorem Booked.accounted (reachable : m.Reachable) (h : m.Booked p L) : m.Accounted p L := by
  cases h with
  | home lives booked => exact .home lives booked.records
  | running booked =>
    have fits := (fits_of_reachable reachable).session _ rfl
    exact .running booked.records (Session.heeds_of_follows fits booked)

/-- From its start until it is released, the mailbox of a process agrees with the account of what
has been sent to the process and granted, by others, by itself and from outside, in the order of the
sends, and of what the process has received, removed and rewound in between; and it does in each
step what the account says. A message of the mailbox is isomorphic to what has been sent, unless the
process itself has changed it after it had received it. -/
theorem accounted_after {s : Scheduler} (created : s.Created) (before since : List Act) (a : Act)
    (p : Pid) (hp : p ∈ ((rest s).after before).started a)
    (kept : s.table.layout.index p ∉ ((rest s).after (before ++ [a])).trace released since) :
    ((rest s).after (before ++ a :: since)).Accounted p
      (Ledger.empty.posts (((rest s).after (before ++ [a])).trace (posted p) since)) := by
  have origin : (rest s).Reachable := ⟨s, [], created, rfl⟩
  have first : ((rest s).after before).Reachable := ⟨s, before, created, rfl⟩
  have hact : ((rest s).after before).act a = (rest s).after (before ++ [a]) :=
    (after_concat _ before a).symm
  have start := Booked.of_started first hp
  rw [hact] at start
  have second : ((rest s).after (before ++ [a])).Reachable := ⟨s, before ++ [a], created, rfl⟩
  have hlayout : ((rest s).after (before ++ [a])).table.layout = s.table.layout :=
    origin.layout_after (before ++ [a])
  rw [← hlayout] at kept
  have last := start.after second since kept
  rw [← after_append, List.append_assoc, List.singleton_append] at last
  exact last.accounted ⟨s, before ++ a :: since, created, rfl⟩

/-- The code of a process that receives a message and keeps it. -/
def keeper : Chunk :=
  .ofModule { Prototype.named "m" with code := [.pack .nil 0, .pack .rcv 0] }

/-- When it has received one of two messages, its account holds both. -/
theorem accounted_after_keeper :
    let p := twoSlots.table.layout.pid 0 0
    let before : List Act := [.ask (.load keeper)]
    let a : Act := .ask (.spawn (.function ⟨0, 0⟩) [])
    let since : List Act := [.ask (.send p (.integer 7)), .ask (.send p .nil), .go, .go,
      .go, .go, .go]
    let L := Ledger.empty.posts (((rest twoSlots).after (before ++ [a])).trace (posted p) since)
    twoSlots.Created ∧ p ∈ ((rest twoSlots).after before).started a ∧
      twoSlots.table.layout.index p ∉ ((rest twoSlots).after (before ++ [a])).trace released since ∧
      L.letters.map (·.message) = [.integer 7, .nil] ∧ L.peeked = 1 ∧
      ((rest twoSlots).after (before ++ a :: since)).Accounted p L := by
  intro p before a since L
  have created : twoSlots.Created :=
    ⟨{ indexBits := 1, generationBits := 1 }, _, .create ⟨#[]⟩ .refuse, rfl⟩
  have hp : p ∈ ((rest twoSlots).after before).started a := by decide +kernel
  have kept : twoSlots.table.layout.index p ∉
      ((rest twoSlots).after (before ++ [a])).trace released since := by decide +kernel
  exact ⟨created, hp, kept, by decide +kernel, by decide +kernel,
    accounted_after created before since a p hp kept⟩

/-- The code of a process that sends a tuple to itself, receives it, and writes to it while it is
still in the mailbox. -/
def scribbler : Chunk :=
  .ofModule { Prototype.named "m" with
    code := [.pack .imp 0, .pack .ivk 0, .pack .lsi 1, .pack .imp 1, .pack .ivk 1, .pack .snd 0,
      .pack .nil 0, .pack .rcv 0, .pack .lsi 9, .pack .lsi 0, .pack .llv 0, .pack .imp 2,
      .pack .ivk 3]
    imports := [⟨"std", "self"⟩, ⟨"tuple", "new"⟩, ⟨"tuple", "set"⟩] }

/-- A system with the natives that this takes. -/
def scribbling : Scheduler :=
  { twoSlots with
    loader := .create ⟨#[⟨"std", "self", .operation .selfPid⟩,
      ⟨"tuple", "new", .operation .tupleNew⟩, ⟨"tuple", "set", .operation .tupleSet⟩]⟩ .refuse }

set_option maxRecDepth 2000 in
/-- A message that the process has written to is not isomorphic to what has been sent any more,
though it has not been removed. -/
theorem not_copiedTo_scribbler :
    ∃ (s : Scheduler) (before since : List Act) (a : Act) (p : Pid) (session : Session Dispatch)
      (x : Letter) (v : Value), s.Created ∧ p ∈ ((rest s).after before).started a ∧
      s.table.layout.index p ∉ ((rest s).after (before ++ [a])).trace released since ∧
      ((rest s).after (before ++ a :: since)).session? = some session ∧ session.kernel.current = p ∧
      (Ledger.empty.posts (((rest s).after (before ++ [a])).trace (posted p) since)).letters = [x] ∧
      session.actor.mailbox.messages = #[v] ∧ ¬x.CopiedTo session.actor.heap.memory v := by
  let before : List Act := [.ask (.load scribbler)]
  let a : Act := .ask (.spawn (.function ⟨0, 0⟩) [])
  let since : List Act := .replicate 16 .go
  let p := scribbling.table.layout.pid 0 0
  have created : scribbling.Created :=
    ⟨{ indexBits := 1, generationBits := 1 }, _, .create _ .refuse, rfl⟩
  have hp : p ∈ ((rest scribbling).after before).started a := by decide +kernel
  -- The send measures the tuple by a search that only unfolds by its equations.
  have kept : ((rest scribbling).after (before ++ [a])).trace released since = [] := by decide_cbv
  have runs : ((rest scribbling).after (before ++ a :: since)).session?.map (fun session =>
      (session.kernel.current, session.actor.mailbox.messages,
        session.actor.heap.memory.slotAt (.ofNat 40) 0)) =
      some (p, #[.object .tuple (.ofNat 40)], .integer 9) := by decide_cbv
  have sent :
    (Ledger.empty.posts (((rest scribbling).after (before ++ [a])).trace
      (posted p) since)).letters.map
      (fun x => (x.message, x.source.memory.lengthAt (.ofNat 0),
        x.source.memory.slotAt (.ofNat 0) 0)) =
      [(.object .tuple (.ofNat 0), 1, .nil)] := by decide_cbv
  obtain ⟨session, hsession, hrun⟩ := Option.map_eq_some_iff.mp runs
  obtain ⟨x, hx, hsent⟩ := List.map_eq_singleton_iff.mp sent
  simp only [Prod.mk.injEq] at hrun hsent
  obtain ⟨hcurrent, hmessages, hnine⟩ := hrun
  obtain ⟨hmessage, hlength, hnil⟩ := hsent
  refine ⟨scribbling, before, since, a, p, session, x, .object .tuple (.ofNat 40), created, hp,
    ?_, hsession, hcurrent, hx, hmessages, ?_⟩
  · rw [kept]
    exact List.not_mem_nil
  · rintro ⟨σ, iso, copy⟩
    rw [hmessage] at copy
    cases copy with
    | object h =>
      have hslot := (iso.alike h).slots 0 (by rw [Memory.slotsAt, hlength]; exact Nat.one_pos)
      rw [hnil, hnine] at hslot
      cases hslot

end Moment

end ActorMachine
