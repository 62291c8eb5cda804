import ActorMachine.Proofs.Fates
import ActorMachine.Proofs.Posting

/-!
# What processes are handed

Processes are handed values by others: arguments when they are started
(`Actor.follows_of_prepareEntry`), and messages (`Actor.Follows.ends_deliver`). As long as nothing
is handed over but what is vouched for, all processes of a system go on holding nothing else,
whatever the one that runs asks for (`Dispatch.trusts`) and whatever is asked for from outside
(`Scheduler.follows_ask`).
-/

namespace ActorMachine

open Memory

/-! ## First calls -/

/-- Arguments, from a heap or on their own. What can be called of them and of what they reach is
vouched for. -/
inductive Handed (F : Value → Prop) : Option Heap → List Value → Prop
  | some {h : Heap} {args : List Value} (letters : ∀ v ∈ args, Letter.Vouched F ⟨v, h⟩) :
    Handed F (some h) args
  | none {args : List Value} (values : ∀ v ∈ args, v.Vouched F) : Handed F none args

namespace Actor

variable {F : Value → Prop} {L : Ledger} {ρ : Matching} {a : Actor}

/-- An actor that has done nothing yet holds nothing. -/
theorem Stows.create (F : Value → Prop) (config : ActorConfig) :
    (Actor.create config).Stows F .empty .empty where
  bounded := .create _ _
  still h := h.elim
  iso := .empty _ _
  stack := .empty _
  held := nofun
  objects := fun _ _ ⟨_, h⟩ => h.elim
  idle := rfl
  cursor := rfl
  peeked_le := Nat.le_refl _
  altered_lt := fun _ h => h.elim
  messages := nofun
  mailbox := ⟨#[], #[], nowhere, rfl, rfl, Nat.le_refl _, .empty _, nofun, nofun, .nil,
    fun _ _ h => h.elim, fun h => h.elim⟩

/-- Where there is room for it, a copy is made of what lives elsewhere. Nothing else can be reached
besides from then on. -/
theorem Stows.ends_copy (h : a.Stows F L ρ) {x : Letter} (hx : x.Vouched F) {n : Nat}
    (measured : x.source.measure x.message = .ok n) (room : n ≤ a.heap.free) :
    Ends (ActorM.onHeap (HeapM.copy x.source x.message)) a
      (fun v b => b.heap.free = a.heap.free - n ∧ ∃ ρ', b.Stows F L ρ' ∧ v.Held F ρ' v)
      fun _ _ => False := by
  obtain ⟨σ, own, message, source⟩ := hx
  obtain ⟨refs, -, hmeasure, -, -, enumerates, -⟩ := Heap.measure_eq own message.alike
  obtain rfl : n = x.source.memory.total refs := Except.ok.inj (measured.symm.trans hmeasure)
  have hfree : a.heap.free = a.heap.capacity - a.heap.used := rfl
  have hused := h.bounded.used_le
  obtain ⟨w, τ, m, run, ext, hsize, copied, copy, hplace⟩ := HeapM.copy_iso a.heap own.left
    own.closedLeft (fun _ _ => message.alike.exists_of_object) enumerates (by omega)
    (Nat.le_trans h.bounded.capacity_le h.bounded.max_le)
  -- The copy, as far as the message leads to it.
  let γ := σ.comp τ
  have iso : Iso γ x.source.memory m := own.trans copied
  have behind : ∀ {s t}, γ.range s t → a.heap.memory.size ≤ t.start :=
    fun ⟨_, _, _, hut⟩ => hplace hut
  have apart : ∀ {s r t s' r'}, ρ s r t → γ.range s' r' → r ≠ r' ∧ m.Apart r r' := fun hρ hγ =>
    h.iso.left.apart_end ext (behind hγ) ⟨_, hρ⟩
  have same : ∀ {s r t}, ρ s r t → SameObject a.heap.memory m r r := fun hρ =>
    ext.sameObject (h.iso.left.isObject ⟨_, hρ⟩)
  have hcopy := message.alike.trans copy
  refine .intro (fun v b hrun => ?_) fun e b hrun => ?_
  · rw [ActorM.onHeap_ok run] at hrun
    cases hrun
    refine ⟨?_, ρ.union (γ.inverse.comp γ), ?_, (hcopy.symm.trans hcopy).mono .inr,
      hcopy.vouched message.vouched⟩
    · show a.heap.capacity - m.size = _
      omega
    · refine h.setMemory ?_ ?_ .inl ?_ (fun hρ => (same hρ).sizeAt) (fun hρ => ?_)
        (fun obj _ => ext.sameObject obj)
          (.inr (h.receivedWithin fun hρ => h.still hρ ▸ same hρ)) ?_
        (by omega)
      · refine (h.iso.extend ext ext).union (iso.symm.trans iso) ?_ ?_
        · exact fun hρ ⟨u, hur, _⟩ => apart hρ ⟨u, hur⟩
        · exact fun hρ ⟨u, _, hut⟩ => apart (h.still hρ ▸ hρ) ⟨u, hut⟩
      · rintro s r t (hρ | ⟨u, hur, hut⟩)
        · exact h.still hρ
        · exact (iso.unique hur hut).mp rfl
      · rintro s r t (hρ | ⟨u, hur, -⟩)
        · exact .inl hρ
        · exact .inr (behind ⟨u, hur⟩)
      · exact (same hρ).stringAt (h.iso.left.isObject ⟨_, hρ⟩)
          (eight_le_sizeAt (h.iso.left.typed ⟨_, hρ⟩))
      · have kept := h.objects.of_same h.iso.left.typed fun ⟨_, hρ⟩ => same hρ
        refine (kept.or (source.move iso)).subset ?_
        rintro s r ⟨t, hρ | ⟨u, hur, -⟩⟩
        · exact .inl ⟨t, hρ⟩
        · obtain ⟨w, huw, hwr⟩ := hur
          exact .inr ⟨u, ⟨w, huw⟩, w, huw, hwr⟩
  · rw [ActorM.onHeap_ok run] at hrun
    cases hrun

end Actor

namespace ActorM

variable {I : Actor → Prop} {a : Actor} {source : Option Heap} {values : List Value}

/-- A property of actors that is kept when one of some values is copied, where there is room, and
then pushed. -/
structure KeptByCopies (I : Actor → Prop) (source : Option Heap) (values : List Value) : Prop where
  inline : source = none → ∀ v ∈ values, v.ref? = none → ∀ a, I a →
    I { a with stack := a.stack.push v }
  copied : ∀ heap, source = some heap → ∀ v ∈ values, ∀ k, measureArg (some heap) v = .ok k →
    ∀ a, I a → k ≤ a.heap.free → Ends (onHeap (HeapM.copy heap v)) a
      (fun w b => b.heap.free = a.heap.free - k ∧ I { b with stack := b.stack.push w })
        fun _ _ => False

theorem KeptByCopies.subset {values' : List Value} (kept : KeptByCopies I source values)
    (hsub : values' ⊆ values) : KeptByCopies I source values' where
  inline hnone v hv := kept.inline hnone v (hsub hv)
  copied heap hsome v hv := kept.copied heap hsome v (hsub hv)

/-- What is kept by each copy is kept while all are pushed, if there is room for them. -/
theorem KeptByCopies.ends_pushCopies (kept : KeptByCopies I source values) {n : Nat}
    (measured : measureArgs source values = .ok n) (room : n ≤ a.heap.free) (h : I a) :
    Ends (pushCopies source values) a (fun _ b => I b) fun _ _ => True := by
  induction values generalizing a n with
  | nil => exact .pure h
  | cons v values ih =>
    obtain ⟨k, m, hk, hm, rfl⟩ := measureArgs_cons_ok measured
    have rest : ∀ {a : Actor} {w : Value}, I { a with stack := a.stack.push w } → m ≤ a.heap.free →
        Ends (do push w; pushCopies source values) a (fun _ b => I b) fun _ _ => True := by
      intro a w h room
      refine .bind <| (ends_push w a).mono ?_ fun _ _ _ => trivial
      rintro _ _ ⟨-, rfl⟩
      exact ih (kept.subset (List.subset_cons_self ..)) hm room h
    unfold pushCopies
    cases source with
    | none =>
      refine rest (kept.inline rfl v List.mem_cons_self ?_ a h) (by omega)
      -- Without a heap there are no arguments that live in one.
      cases v with
      | object s r => cases hk
      | _ => rfl
    | some heap =>
      refine .bind <| (kept.copied heap rfl v List.mem_cons_self k hk a h (by omega)).mono ?_
        fun _ _ h => h.elim
      rintro w b ⟨hfree, h'⟩
      exact rest h' (by omega)

/-- A first call is stacked. What holds once there is room for the arguments, and is kept by each
copy, holds in the end. -/
theorem KeptByCopies.ends_prepareEntry {args : List Value} (kept : KeptByCopies I source args)
    {callee : Value} (reserved : ∀ n, Ends (reserve n) a (fun _ b => I b ∧ n ≤ b.heap.free)
      fun _ _ => True)
    (entered : callee.ref? = none → ∀ b, I b →
      I { b with stack := b.stack.push callee, entry := some args.length }) :
    Ends (prepareEntry callee args source) a (fun _ b => I b) fun _ _ => True := by
  unfold prepareEntry
  refine .ite (fun hcallable => ?_) fun _ => .bind <| .throw trivial
  have hinline : callee.ref? = none := by
    cases callee with
    | object s r => cases hcallable
    | _ => rfl
  cases hneed : measureArgs source args with
  | error e => exact .bind <| .throw trivial
  | ok need =>
    refine .bind <| .pure <| .bind <| (reserved need).mono ?_ fun _ _ _ => trivial
    rintro _ b ⟨h, room⟩
    have kept' := kept.subset (List.reverse_subset.mpr (List.Subset.refl args))
    refine .bind <| (kept'.ends_pushCopies (measureArgs_reverse hneed) room h).mono ?_
      fun _ _ _ => trivial
    rintro _ c h'
    refine .bind <| (ends_push callee c).mono ?_ fun _ _ _ => trivial
    rintro _ _ ⟨-, rfl⟩
    exact .modify (entered hinline c h')

end ActorM

namespace Actor

variable {F : Value → Prop} {L : Ledger} {ρ : Matching} {a : Actor} {source : Option Heap}
    {args : List Value}

/-- Copies of what is vouched for can be pushed. -/
theorem Stows.keptByCopies (F : Value → Prop) (L : Ledger) (handed : Handed F source args) :
    ActorM.KeptByCopies (fun b => ∃ ρ, b.Stows F L ρ) source args where
  inline := by
    rintro rfl v hv hinline b ⟨ρ, h⟩
    cases handed with
    | none values => exact ⟨ρ, h.push ⟨.inline hinline, values v hv⟩⟩
  copied := by
    rintro heap rfl v hv k hk b ⟨ρ, h⟩ room
    cases handed with
    | some letters =>
      have hx := letters v hv
      obtain ⟨σ, own, message, -⟩ := letters v hv
      refine (h.ends_copy hx (ActorM.measure_of_measureArg hk own message.alike) room).mono ?_
        fun _ _ h => h
      rintro w c ⟨hfree, ρ', h', held⟩
      exact ⟨hfree, ρ', h'.push held⟩

/-- A first call is stacked. -/
theorem Stows.ends_prepareEntry (h : a.Stows F L ρ) {callee : Value} (hcallee : callee.Vouched F)
    (handed : Handed F source args) :
    Ends (ActorM.prepareEntry callee args source) a (fun _ b => ∃ ρ', b.Stows F L ρ')
      fun _ _ => True := by
  obtain ⟨σ, -, sound, -⟩ := h.equivalent
  refine (Stows.keptByCopies F L handed).ends_prepareEntry (fun n => ?_) ?_
  · refine (ActorM.ends_reserve sound n).mono ?_ fun _ _ _ => trivial
    rintro _ b ⟨γ, moved, room⟩
    exact ⟨h.moved moved, room⟩
  · rintro hinline b ⟨ρ', h'⟩
    exact ⟨ρ', (h'.push ⟨.inline hinline, hcallee⟩).setCalls _ _ _⟩

end Actor

/-- An actor that has been started has been sent nothing, and holds what it has been handed. -/
theorem Actor.follows_of_prepareEntry {F : Value → Prop} {config : ActorConfig} {callee : Value}
    {args : List Value} {source : Option Heap} {a : Actor} (hcallee : callee.Vouched F)
    (handed : Handed F source args)
    (run : ActorM.prepareEntry callee args source (Actor.create config) = .ok () a) :
    a.Follows F .empty := by
  obtain ⟨ρ, h⟩ := ((Stows.create F config).ends_prepareEntry hcallee handed).of_ok run
  exact h.follows

/-! ## Messages -/

/-- A string from outside leads to nothing that can be called. -/
theorem Letter.vouched_ofText (F : Value → Prop) (text : String) :
    (Letter.ofText text).Vouched F := by
  unfold Letter.ofText
  dsimp only
  cases run : (HostArg.text text).stage _ with
  | ok message source =>
    have vouched : (HostArg.text text).Vouched F := trivial
    obtain ⟨σ, -, -, iso, held, objects⟩ :=
      HostArg.stage_spec rfl (.create _ _) (.empty _ _) vouched
      (fun _ _ ⟨_, h⟩ => h.elim) run
    exact ⟨σ, iso, held, objects⟩
  | error e source =>
    exact .of_inline (v := .nil) Bool.false_ne_true nofun source

namespace Actor.Follows

variable {F : Value → Prop} {L : Ledger} {a : Actor}

/-- A delivery that succeeds goes to the end of the account, and one that fails leaves it alone. -/
theorem ends_receiving (h : a.Follows F L) (letters : List Letter) {m : ActorM Unit}
    (same : ∀ g ρ, ActorM.Same g (fun _ => True) ρ m m fun _ _ _ => True) (unraised : m.Unraised)
    (receives : ∀ ρ, a.Equivalent ρ a →
      Ends m a (fun _ b => ∃ γ, a.Receives γ letters b) fun _ b => ∃ γ, a.Receives γ [] b)
    (vouched : ∀ x ∈ letters, x.Vouched F) :
    Ends m a (fun _ b => b.Follows F (L.posts (letters.map .sent))) fun e b => ¬e.Dangling ∧
      b.Follows F L := by
  obtain ⟨ρ, sound, -⟩ := h.equivalent
  have bounded := ActorM.ends_bounded sound fun g => same g ρ
  refine ((receives ρ sound).and (bounded.and (unraised a))).mono ?_ ?_
  · rintro _ b ⟨⟨γ, received⟩, hb, -⟩
    exact h.receive received vouched hb
  · rintro e b ⟨⟨γ, received⟩, hb, he⟩
    exact ⟨he.not_dangling, h.receive received nofun hb⟩

theorem ends_deliver (h : a.Follows F L) (self : Pid) {x : Letter} (hx : x.Vouched F) :
    Ends (ActorM.deliver self x.source x.message) a (fun _ b => b.Follows F (L.post (.sent x)))
      fun e b => ¬e.Dangling ∧ b.Follows F L := by
  obtain ⟨σ, iso, message⟩ := hx.sound
  refine h.ends_receiving [x] (fun g ρ => ActorM.same_deliver self iso message)
    (ActorM.unraised_deliver self _ _) (fun ρ sound => ?_) (List.forall_mem_singleton.mpr hx)
  exact (ActorM.ends_deliver sound self hx.sound).mono (fun _ _ h => h) fun _ _ h => h.2

theorem ends_deliverText (h : a.Follows F L) (self : Pid) (text : String) :
    Ends (ActorM.deliverBytes self text.toUTF8) a
      (fun _ b => b.Follows F (L.post (.sent (.ofText text)))) fun e b => ¬e.Dangling ∧
        b.Follows F L :=
  h.ends_receiving [.ofText text] (fun _ _ => ActorM.same_deliverBytes self _)
    (ActorM.unraised_deliverBytes self _) (fun _ sound => ActorM.ends_deliverText sound self text)
    (List.forall_mem_singleton.mpr (Letter.vouched_ofText F text))

end Actor.Follows

/-! ## Processes -/

/-- A process whose mailbox agrees with an account, and that holds nothing but what is vouched
for. -/
def Process.Follows (F : Value → Prop) (p : Process) : Prop :=
  ∃ L, p.actor.Follows F L

namespace Process

variable {F : Value → Prop} {p : Process}

theorem Follows.notify (h : p.Follows F) : p.notify.Follows F := by
  rw [notify_eq]
  exact h

/-- What an actor does with a message, its process does. -/
theorem Follows.ends_delivered (h : p.Follows F) {m : ActorM Unit} {x : Letter}
    (hm : ∀ L, p.actor.Follows F L → Ends m p.actor (fun _ b => b.Follows F (L.post (.sent x)))
      fun e b => ¬e.Dangling ∧ b.Follows F L) :
    Ends (do onActor m; modify Process.notify) p (fun _ p' => p'.Follows F)
      fun e p' => ¬e.Dangling ∧ p'.Follows F := by
  obtain ⟨L, h⟩ := h
  refine .bind <| ends_onActor <| (hm L h).mono ?_ ?_
  · exact fun _ _ h => .modify (Follows.notify ⟨_, h⟩)
  · exact fun _ _ h => ⟨h.1, L, h.2⟩

/-- A letter is delivered. -/
theorem Follows.ends_deliver (h : p.Follows F) (address : Pid) {x : Letter} (hx : x.Vouched F) :
    Ends (deliver address (some x.source) x.message) p (fun _ p' => p'.Follows F)
      fun e p' => ¬e.Dangling ∧ p'.Follows F :=
  h.ends_delivered fun _ h => h.ends_deliver address hx

/-- A value from outside is delivered, if it is inline. -/
theorem Follows.ends_send (h : p.Follows F) (address : Pid) {v : Value} (hv : v.Vouched F) :
    Ends (deliver address none v) p (fun _ p' => p'.Follows F) fun e p' => ¬e.Dangling ∧
      p'.Follows F := by
  refine .ite (fun _ => .bind <| .throw ⟨nofun, h⟩) fun inline => ?_
  have hdeliver := h.ends_deliver address (.of_inline inline hv (Heap.create 0 0))
  unfold deliver at hdeliver
  dsimp only at hdeliver
  rwa [ActorM.deliver_of_inline address _ inline] at hdeliver

/-- A string from outside is delivered. -/
theorem Follows.ends_sendText (h : p.Follows F) (address : Pid) (text : String) :
    Ends (deliverBytes address text.toUTF8) p (fun _ p' => p'.Follows F)
      fun e p' => ¬e.Dangling ∧ p'.Follows F :=
  h.ends_delivered fun _ h => h.ends_deliverText address text

end Process

/-! ## The others -/

namespace ProcessTable

variable {P : Process → Prop} {t : ProcessTable}

/-- A process is reached, or there is none under the pid. -/
theorem Each.ends_onProcess (h : t.Each P) (address : Pid) {m : EStateM Fault Process α}
    {E : Fault → Prop} (hm : ∀ p, P p → Ends m p (fun _ p' => P p') fun e p' => E e ∧ P p')
    (invalid : E (.invalidPid address)) :
    Ends (ProcessTable.onProcess address m) t (fun _ t' => t'.Each P) fun e t' => E e ∧
      t'.Each P := by
  unfold Ends ProcessTable.onProcess
  cases hget : t.get? address with
  | none => exact ⟨invalid, h⟩
  | some p =>
    have hp := hm p (h.of_occupant (get?_eq_some hget).1)
    have haway := h.setOccupant address (o := .away) nofun
    unfold Ends at hp
    dsimp only
    cases hrun : m p with
    | ok x q =>
      rw [hrun] at hp
      exact haway.setOccupant address (by rintro _ ⟨⟩; exact hp)
    | error e q =>
      rw [hrun] at hp
      exact ⟨hp.1, haway.setOccupant address (by rintro _ ⟨⟩; exact hp.2)⟩

end ProcessTable

/-- No process is refused because of a function that is not there. -/
theorem ProcessTable.not_dangling_of_spawn {t : ProcessTable} {callee : Value} {args : List Value}
    {source : Option Heap} {e : Fault} {t' : ProcessTable}
    (run : spawn callee args source t = .error e t') : ¬e.Dangling := by
  unfold spawn at run
  cases hprepare : ActorM.prepareEntry callee args source (Actor.create t.config) with
  | error e' a =>
    rw [hprepare] at run
    cases run
    exact ((ActorM.unraised_prepareEntry callee args source _).of_error hprepare).not_dangling
  | ok _ actor =>
    rw [hprepare] at run
    dsimp only at run
    cases htake : t.takeSlot with
    | none =>
      rw [htake] at run
      cases run
      exact nofun
    | some found =>
      rw [htake] at run
      cases run

namespace Dispatch

variable {F : Value → Prop}

theorem ends_onTable {d : Dispatch} {m : EStateM Fault ProcessTable α}
    {ok : α → ProcessTable → Prop} {err : Fault → ProcessTable → Prop} (h : Ends m d.table ok err) :
    Ends (onTable m) d (fun x d' => ok x d'.table) fun e d' => err e d'.table := by
  unfold Ends onTable
  unfold Ends at h
  dsimp only
  cases hm : m d.table with
  | ok x t =>
    rw [hm] at h
    exact h
  | error e t =>
    rw [hm] at h
    exact h

/-- The others hold what is vouched for as long as they are handed nothing else. -/
theorem trusts (F : Value → Prop) :
    Kernel.Trusts F False fun d : Dispatch => d.table.Each (Process.Follows F) where
  send {d x} h _ hx target :=
    ends_onTable (h.ends_onProcess target (fun p hp => hp.ends_deliver target hx) nofun)
  spawn {d ρ heap callee args} h _ iso objects hcallee hargs vouched := by
    have handed : Handed F (some heap) args := .some fun v hv =>
      ⟨ρ, iso, ⟨hargs.of_mem v hv, vouched v hv⟩, objects⟩
    have ends : Ends (ProcessTable.spawn callee args (some heap)) d.table
        (fun _ t => t.Each (Process.Follows F))
        fun e t => ¬e.Dangling ∧ t.Each (Process.Follows F) := by
      refine .intro (fun pid t run => ?_) fun e t run => ?_
      · exact h.spawn (fun _ prepared =>
          ⟨_, Actor.follows_of_prepareEntry hcallee.vouched handed prepared⟩) run
      · obtain rfl := ProcessTable.eq_of_spawn_eq_error run
        exact ⟨ProcessTable.not_dangling_of_spawn run, h⟩
    exact ends_onTable ends
  kill {d} h target :=
    ends_onTable (h.ends_onProcess target (m := Process.requestExit) (fun p hp => .modify hp) nofun)

end Dispatch

/-! ## Requests -/

/-- Whatever is given with a request is vouched for, if it can be called. -/
def Request.Vouched (F : Value → Prop) : Request → Prop
  | spawn callee args => callee.Vouched F ∧ ∀ arg ∈ args, arg.Vouched F
  | spawnExport _ _ args => ∀ arg ∈ args, arg.Vouched F
  | send _ v => v.Vouched F
  | _ => True

namespace Scheduler

variable {F : Value → Prop} {s : Scheduler}

/-- Arguments that are staged may be handed over. -/
theorem handed_of_stageArgs {args : List HostArg} {values : List Value} {source : Option Heap}
    (vouched : ∀ arg ∈ args, arg.Vouched F) (run : stageArgs args = .ok (values, source)) :
    Handed F source values := by
  obtain ⟨σ, hsource, held, objects⟩ := stageArgs_spec vouched run
  cases hsource with
  | none => exact .none fun v hv => (held v hv).vouched
  | some iso => exact .some fun v hv => ⟨σ, iso, held v hv, objects _ rfl⟩

/-- What is asked for from outside hands over nothing but what is vouched for, if what
modules export is. -/
theorem follows_ask (h : s.table.Each (Process.Follows F)) {r : Request} (vouched : r.Vouched F)
    (exports : ∀ {module name f}, s.loader.find? module name = some f → F (.function f)) :
    (s.ask r).table.Each (Process.Follows F) := by
  refine each_ask_of h r ?_ ?_
  · intro callee args hstart values source staged actor pid prepared
    have handed : callee.Vouched F ∧ ∀ arg ∈ args, arg.Vouched F := by
      cases r with
      | spawn callee args =>
        cases hstart
        exact vouched
      | spawnExport module name args =>
        obtain ⟨f, hfind, heq⟩ := Option.map_eq_some_iff.mp hstart
        cases heq
        exact ⟨fun _ => exports hfind, vouched⟩
      | _ => cases hstart
    exact ⟨_, Actor.follows_of_prepareEntry handed.1 (handed_of_stageArgs handed.2 staged) prepared⟩
  · intro target m hreach p hp
    cases r with
    | send target v =>
      cases hreach
      exact ((hp.ends_send _ vouched).mono (fun _ _ h => h) fun _ _ h => h.2).leaves
    | sendText target text =>
      cases hreach
      exact ((hp.ends_sendText _ text).mono (fun _ _ h => h) fun _ _ h => h.2).leaves
    | kill target =>
      cases hreach
      exact hp
    | _ => cases hreach

end Scheduler

end ActorMachine
