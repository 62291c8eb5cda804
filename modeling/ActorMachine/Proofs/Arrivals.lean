import ActorMachine.Proofs.Collections
import ActorMachine.Proofs.Letters

/-!
# Which messages arrive

A delivery is refused for one of two reasons, and both can be told beforehand: the mailbox is full,
or what the actor holds and the message together take up more room than the heap may ever have
(`Actor.refusal?`). It either adds a whole copy of the message or nothing at all, and a message to
oneself fares as the same message from anywhere else would (`ActorM.deliver_exact`).
-/

namespace ActorMachine

open Memory

/-- What a delivery is refused for, if it is refused. What the actor holds takes up `live` bytes,
and the message `bytes` more. -/
def Actor.refusal? (a : Actor) (self : Pid) (message : Value) (live bytes : Nat) : Option Fault :=
  if a.limits.maxMailbox ≤ a.mailbox.size then some (.mailboxFull self)
  else if message.isCollectable ∧ a.heap.maxCapacity < live + bytes then
    some (.heap (.outOfMemory bytes a.heap.maxCapacity))
  else none

/-- The only copy is that of the only letter. -/
theorem Copies.of_singleton {m : Memory} {P Q : Shape → Ref → Prop} {x : Letter}
    {values : Array Value} (h : Copies m P Q [x] values) :
    ∃ copy σ, values = #[copy] ∧ Iso σ x.source.memory m ∧ x.message.Match σ copy ∧
      ∀ {s r s' t}, P s r → σ.range s' t → r ≠ t ∧ m.Apart r t := by
  generalize hletters : [x] = letters at h
  cases h with
  | nil => cases hletters
  | @snoc _ before copies σ y copy hbefore iso hcopy apart =>
    obtain ⟨hnil, hlast⟩ := List.append_inj' ((List.nil_append [x]).trans hletters) rfl
    cases hlast
    cases hbefore with
    | nil => exact ⟨copy, σ, rfl, iso, hcopy, apart⟩
    | snoc => cases (List.append_eq_nil_iff.mp hnil.symm).2

/-- The mailbox of an actor that has received one letter has one more entry, and that is a copy of
the letter. -/
theorem Actor.Receives.last {γ : Matching} {x : Letter} {a b : Actor} (h : a.Receives γ [x] b) :
    ∃ earlier copy σ, b.mailbox.messages = earlier.push copy ∧
      Value.MatchAll γ a.mailbox.messages earlier ∧ Iso σ x.source.memory b.heap.memory ∧
      x.message.Match σ copy := by
  obtain ⟨earlier, copies, _, hmessages, hearlier, hcopies⟩ := h.mailbox
  obtain ⟨copy, σ, rfl, iso, hcopy, -⟩ := hcopies.of_singleton
  exact ⟨earlier, copy, σ, by rw [hmessages, Array.push_eq_append], hearlier, iso, hcopy⟩

namespace ActorM

variable {a : Actor} {ρ : Matching}

/-- A collection leaves no garbage. -/
theorem used_collect (sound : a.Equivalent ρ a) (request : Nat) :
    Ends (collect request) a (fun _ b => b.heap.used ≤ a.heap.used) fun _ b =>
      b.heap.used ≤ a.heap.used := by
  obtain ⟨γ, refs, -, -, enumerates, hused⟩ :=
    Rooted.compact_iso (s := ⟨a.heap, a.roots⟩) sound.iso.left
    sound.iso.closedLeft (fun _ _ => sound.matched_of_mem) sound.left.used_le_limit
  have hle : (Rooted.compact ⟨a.heap, a.roots⟩).heap.used ≤ a.heap.used := by
    rw [hused]
    refine sound.iso.left.total_le enumerates.nodup fun r hr => ?_
    obtain ⟨s, hreach⟩ := (enumerates.mem_iff r).mp hr
    exact ⟨s, hreach.subset sound.iso.closedLeft fun _ _ => sound.matched_of_mem⟩
  unfold Ends collect
  rw [RootedM.collect_eq]
  by_cases full : a.heap.grownCapacity (Rooted.compact ⟨a.heap, a.roots⟩).heap.used request <
      (Rooted.compact ⟨a.heap, a.roots⟩).heap.used + request
  · rw [if_pos full]
    exact hle
  · rw [if_neg full]
    exact hle

/-- There is room if there can be room beside what the actor holds. -/
theorem reserve_exact (sound : a.Equivalent ρ a) (bytes : Nat) :
    ∃ live, Enumerates live (a.heap.memory.Reaches (· ∈ a.roots)) ∧ ∃ b γ, a.Equivalent γ b ∧
      if a.heap.maxCapacity < a.heap.memory.total live + bytes then
        reserve bytes a = .error (.heap (.outOfMemory bytes a.heap.maxCapacity)) b ∧
          b.heap.used ≤ a.heap.used
      else reserve bytes a = .ok () b ∧ bytes ≤ b.heap.free := by
  obtain ⟨b, γ, live, moved, enumerates, run, free⟩ :=
    collect_spec sound.iso.left sound.iso.closedLeft
    (fun _ _ => sound.matched_of_mem) sound.left bytes
  refine ⟨live, enumerates, ?_⟩
  by_cases room : bytes ≤ a.heap.free
  · have hle : a.heap.memory.total live ≤ a.heap.used :=
      sound.iso.left.total_le enumerates.nodup fun r hr => by
        obtain ⟨s, hreach⟩ := (enumerates.mem_iff r).mp hr
        exact ⟨s, hreach.subset sound.iso.closedLeft fun _ _ => sound.matched_of_mem⟩
    have hfree : a.heap.free = a.heap.capacity - a.heap.used := rfl
    have hused := sound.left.used_le
    have hcapacity := sound.left.capacity_le
    refine ⟨a, ρ, sound, ?_⟩
    rw [if_neg (by omega)]
    exact ⟨reserve_of_le room, room⟩
  · rw [← reserve_of_lt (Nat.lt_of_not_le room)] at run
    refine ⟨b, γ, moved, ?_⟩
    by_cases full : a.heap.maxCapacity < a.heap.memory.total live + bytes
    · rw [if_pos full] at run ⊢
      rw [reserve_of_lt (Nat.lt_of_not_le room)] at run
      exact ⟨(reserve_of_lt (Nat.lt_of_not_le room)).trans run,
        (used_collect sound bytes).of_error run⟩
    · rw [if_neg full] at run ⊢
      exact ⟨run, free (Nat.le_of_not_lt full)⟩

/-- What becomes of a delivery. -/
theorem deliver_outcome (sound : a.Sound) (self : Pid) {x : Letter} (hx : x.Sound) :
    ∃ live graph, Enumerates live (a.heap.memory.Reaches (· ∈ a.roots)) ∧
      Enumerates graph (x.source.memory.Reaches (· = x.message)) ∧
      x.source.measure x.message = .ok (x.source.memory.total graph) ∧ ∃ b γ,
        match a.refusal? self x.message (a.heap.memory.total live)
          (x.source.memory.total graph) with
        | some e => deliver self x.source x.message a = .error e b ∧ a.Equivalent γ b ∧
            b.heap.used ≤ a.heap.used
        | none => deliver self x.source x.message a = .ok () b ∧ a.Receives γ [x] b := by
  obtain ⟨ρ, sound⟩ := sound
  obtain ⟨σ, iso, hmessage⟩ := hx
  obtain ⟨graph, -, hmeasure, -, -, hgraph, -⟩ := Heap.measure_eq iso hmessage
  obtain ⟨live, hlive, b, γ, moved, hreserve⟩ := reserve_exact sound (x.source.memory.total graph)
  refine ⟨live, graph, hlive, hgraph, hmeasure, ?_⟩
  unfold Actor.refusal?
  by_cases full : a.limits.maxMailbox ≤ a.mailbox.size
  · refine ⟨a, ρ, ?_⟩
    have hcheck : checkMailbox self a = .error (.mailboxFull self) a := by
      show (if _ then _ else _ : ActorM Unit) a = _
      rw [if_pos full]
      rfl
    rw [if_pos full]
    exact ⟨bind_of_error hcheck, sound, Nat.le_refl _⟩
  · have hcheck : checkMailbox self a = .ok () a := by
      show (if _ then _ else _ : ActorM Unit) a = _
      rw [if_neg full]
      rfl
    have hdeliver : deliver self x.source x.message a = _ := bind_of_ok hcheck
    rw [if_neg full, hdeliver]
    by_cases collectable : x.message.isCollectable
    · simp only [collectable, if_true, true_and, hmeasure]
      have hbegin : ∀ (f : Nat → ActorM Unit),
        (ofHeap (.ok (x.source.memory.total graph)) >>= f) a =
          f (x.source.memory.total graph) a := fun _ => rfl
      rw [hbegin]
      by_cases cramped : a.heap.maxCapacity < a.heap.memory.total live + x.source.memory.total graph
      · rw [if_pos cramped] at hreserve ⊢
        exact ⟨b, γ, bind_of_error hreserve.1, moved, hreserve.2⟩
      · rw [if_neg cramped] at hreserve ⊢
        obtain ⟨run, room⟩ := hreserve
        have hfree : b.heap.free = b.heap.capacity - b.heap.used := rfl
        have hused := moved.right.used_le
        obtain ⟨v, τ, m, copied, ext, -, iso', hv, new⟩ :=
          HeapM.copy_iso b.heap iso.left iso.closedLeft
          (fun s r heq => hmessage.exists_of_object heq) hgraph (by omega)
          (Nat.le_trans moved.right.capacity_le moved.right.max_le)
        refine ⟨_, γ, ?_, .of_copy moved ext iso' hv new⟩
        rw [bind_of_ok run, bind_of_ok (onHeap_ok copied)]
        rfl
    · simp only [collectable, Bool.false_eq_true, if_false, false_and]
      exact ⟨_, ρ, rfl, .of_inline sound collectable⟩

/-- A delivery is refused for nothing that a program says. -/
theorem ends_deliver_not_raised (sound : a.Sound) (self : Pid) {x : Letter} (hx : x.Sound) :
    Ends (deliver self x.source x.message) a (fun _ _ => True) fun e _ =>
      ∀ text, e ≠ .raised text := by
  obtain ⟨live, graph, -, -, -, b, γ, outcome⟩ := deliver_outcome sound self hx
  refine .intro (fun _ _ _ => trivial) fun e c run => ?_
  unfold Actor.refusal? at outcome
  by_cases full : a.limits.maxMailbox ≤ a.mailbox.size
  · rw [if_pos full] at outcome
    cases run.symm.trans outcome.1
    exact nofun
  · rw [if_neg full] at outcome
    by_cases cramped : x.message.isCollectable ∧
        a.heap.maxCapacity < a.heap.memory.total live + x.source.memory.total graph
    · rw [if_pos cramped] at outcome
      cases run.symm.trans outcome.1
      exact nofun
    · rw [if_neg cramped] at outcome
      cases run.symm.trans outcome.1

/-- An inline message is in no heap. -/
theorem deliverLocal_of_inline {v : Value} (inline : ¬v.isCollectable) (self : Pid) (h : Heap) :
    deliverLocal self v = deliver self h v := by
  unfold deliverLocal deliver
  rw [if_neg inline, if_neg inline]

/-- A message to oneself is delivered out of a heap of its own. -/
theorem deliverLocal_staged (own : a.heap.Bounded) (self : Pid) {v w : Value} {σ : Matching}
    {m : Memory} (iso : Iso σ a.heap.memory m) (hv : v.Match σ w) (collectable : v.isCollectable) :
    ∃ τ y staging, deliverLocal self v a = deliver self staging y a ∧
      Iso τ a.heap.memory staging.memory ∧
      v.Match τ y := by
  let h : Heap := { a.heap with memory := m }
  have iso : Iso σ a.heap.memory h.memory := iso
  obtain ⟨graph, -, hmeasure, -, -, enumerates, -⟩ := Heap.measure_eq iso hv
  have hle : a.heap.memory.total graph ≤ a.heap.used :=
    iso.left.total_le enumerates.nodup fun r hr => by
    obtain ⟨s, hreach⟩ := (enumerates.mem_iff r).mp hr
    exact ⟨s, hreach.subset iso.closedLeft fun s r heq => hv.exists_of_object heq.symm⟩
  obtain ⟨τ, y, staging, run, staged, hy⟩ := exists_staging iso hv hmeasure
    (Nat.le_trans hle own.used_le_limit)
  refine ⟨τ, y, staging, ?_, staged, hy⟩
  unfold deliverLocal
  rw [if_pos collectable]
  refine (bind_of_ok rfl).trans ?_
  rw [hmeasure]
  refine (bind_of_ok rfl).trans ?_
  rw [run]

/-- Out of two heaps that hold the same message it is delivered in the same way. -/
theorem together_deliver (sound : a.Sound) (self : Pid) {x y : Letter} {σ : Matching}
    (iso : Iso σ y.source.memory x.source.memory) (hyx : y.message.Match σ x.message) :
    Together (deliver self y.source y.message) (deliver self x.source x.message) a a
      (fun _ b _ c => ∃ τ, b.Equivalent τ c) fun e b e' c => e = e' ∧ ∃ τ, b.Equivalent τ c := by
  have hy : y.Sound := ⟨_, iso.trans iso.symm, hyx.trans hyx.symm⟩
  have plain := ends_deliver_not_raised sound self hy
  obtain ⟨ρ, sound⟩ := sound
  have same := same_deliver (B := fun _ => False) self iso hyx a a
    (.of_equivalent sound a.heap.memory)
  cases run : deliver self y.source y.message a with
  | ok _ b =>
    obtain ⟨_, c, run', τ, hbc, -⟩ := same.of_ok run
    exact .ok_ok run run' ⟨τ, hbc.toEquivalent⟩
  | error e b =>
    obtain ⟨e', c, run', τ, he, hbc⟩ := same.of_error run
    refine .error_error run run' ⟨?_, τ, hbc.toEquivalent⟩
    cases he with
    | same _ => rfl
    | shown _ _ => exact absurd rfl (plain.of_error run _)

/-- Whether the actor's own heap holds a message or another one does makes no difference, though the
actor's heap may be collected on the way. -/
theorem together_deliverLocal (sound : a.Sound) (self : Pid) {x : Letter} {v : Value} {σ : Matching}
    (iso : Iso σ a.heap.memory x.source.memory) (hv : v.Match σ x.message) :
    Together (deliverLocal self v) (deliver self x.source x.message) a a
      (fun _ b _ c => ∃ τ, b.Equivalent τ c) fun e b e' c => e = e' ∧ ∃ τ, b.Equivalent τ c := by
  by_cases collectable : v.isCollectable
  · obtain ⟨ρ, own⟩ := sound
    obtain ⟨τ, y, staging, run, staged, hy⟩ := deliverLocal_staged own.left self iso hv collectable
    have h := together_deliver ⟨ρ, own⟩ self (y := ⟨y, staging⟩) (staged.symm.trans iso)
      (hy.symm.trans hv)
    unfold Together at h ⊢
    rwa [run]
  · rw [deliverLocal_of_inline collectable self a.heap]
    exact together_deliver sound self (y := ⟨v, a.heap⟩) iso hv

/-- A message is delivered to a sound actor out of any heap that holds it whole. Let what the
actor's stack and mailbox reach take up `live` bytes, and what the message reaches `bytes`, which
are none if it is inline. The delivery is refused if the mailbox is full, and otherwise if the
message is an object and `live` and `bytes` are together more than the heap may ever have room for,
and for nothing else. If it is refused, the actor is the same but for the places of its objects,
with no more in its heap than before. If it is not, there is one more entry in the mailbox, which is
isomorphic to the message, and nothing else has changed. When the actor's own heap holds the
message, whether or not anything refers to it there, it is all the same. -/
theorem deliver_exact (sound : a.Sound) (self : Pid) {x : Letter} (hx : x.Sound) :
    (∃ live graph, Enumerates live (a.heap.memory.Reaches (· ∈ a.roots)) ∧
      Enumerates graph (x.source.memory.Reaches (· = x.message)) ∧
      x.source.measure x.message = .ok (x.source.memory.total graph) ∧
      (¬x.message.isCollectable → x.source.memory.total graph = 0) ∧ ∃ b γ,
        match a.refusal? self x.message (a.heap.memory.total live)
          (x.source.memory.total graph) with
        | some e => deliver self x.source x.message a = .error e b ∧ a.Equivalent γ b ∧
            b.heap.used ≤ a.heap.used
        | none => deliver self x.source x.message a = .ok () b ∧ a.Receives γ [x] b ∧
            ∃ earlier copy σ, b.mailbox.messages = earlier.push copy ∧
              Value.MatchAll γ a.mailbox.messages earlier ∧ Iso σ x.source.memory b.heap.memory ∧
              x.message.Match σ copy) ∧
    ∀ (v : Value) (σ : Matching), Iso σ a.heap.memory x.source.memory → v.Match σ x.message →
      Together (deliverLocal self v) (deliver self x.source x.message) a a
        (fun _ b _ c => ∃ τ, b.Equivalent τ c) fun e b e' c => e = e' ∧ ∃ τ, b.Equivalent τ c := by
  refine ⟨?_, fun v σ iso hv => together_deliverLocal sound self iso hv⟩
  obtain ⟨live, graph, hlive, hgraph, hmeasure, b, γ, outcome⟩ := deliver_outcome sound self hx
  refine ⟨live, graph, hlive, hgraph, hmeasure, fun inline => ?_, b, γ, ?_⟩
  · have hnone : x.message.ref? = none := by
      cases hmessage : x.message.ref? with
      | none => rfl
      | some r => simp [Value.isCollectable, hmessage] at inline
    rw [Heap.measure, hnone] at hmeasure
    exact (Except.ok.inj hmeasure).symm
  · cases hrefusal : a.refusal? self x.message (a.heap.memory.total live)
      (x.source.memory.total graph) with
    | some e =>
      rw [hrefusal] at outcome
      exact outcome
    | none =>
      rw [hrefusal] at outcome
      exact ⟨outcome.1, outcome.2, outcome.2.last⟩

end ActorM

/-- The heap of this actor is full, of garbage and of a tuple that holds itself. -/
def Actor.hoarder : Actor :=
  { Actor.create {} with heap := .knot, stack := #[.object .tuple (.ofNat 24)] }

theorem Heap.iso_knot : Iso (.single .tuple (.ofNat 24) (.ofNat 24)) knot.memory knot.memory := by
  have typed : knot.memory.WellTyped (.ofNat 24) .tuple :=
    show knot.memory.sizeAt (.ofNat 24) = tupleSize (knot.memory.lengthAt (.ofNat 24)) by
      decide +kernel
  refine .single isObject_knot isObject_knot typed typed ⟨rfl, rfl, nofun, fun i hi => ?_⟩
  have hlength : knot.memory.slotsAt (.ofNat 24) .tuple = 1 := by decide +kernel
  have hself : knot.memory.slotAt (.ofNat 24) 0 = .object .tuple (.ofNat 24) := by decide +kernel
  obtain rfl : i = 0 := by omega
  rw [hself]
  exact .object ⟨rfl, rfl, rfl⟩

/-- The tuple that holds itself takes up forty bytes. -/
theorem Heap.total_knot {roots : Value → Prop} {refs : List Ref}
    (only : ∀ v, roots v ↔ v = .object .tuple (.ofNat 24))
    (enumerates : Enumerates refs (knot.memory.Reaches roots)) : knot.memory.total refs = 40 := by
  have hroots : ∀ s r, roots (.object s r) →
      ∃ t, Matching.single .tuple (.ofNat 24) (.ofNat 24) s r t := by
    intro s r hr
    cases (only _).mp hr
    exact ⟨_, rfl, rfl, rfl⟩
  have lists := lists_knot ((only _).mpr rfl) fun s r hr => by
    cases (only _).mp hr
    rfl
  have lists' : Lists refs (knot.memory.Leads roots) :=
    ⟨enumerates.nodup, fun r => (enumerates.mem_iff r).trans
      (leads_iff iso_knot.left iso_knot.closedLeft hroots).symm⟩
  rw [lists'.total_eq lists]
  decide +kernel

theorem Actor.sound_hoarder : hoarder.Sound := by
  refine ⟨_, rfl, rfl, rfl, rfl, rfl, rfl, rfl, Heap.bounded_knot, Heap.bounded_knot,
    Heap.iso_knot, ?_, .empty _⟩
  exact (Value.MatchAll.empty _).push (.object ⟨rfl, rfl, rfl⟩)

namespace ActorM

/-- The tuple that holds itself is delivered to the actor that has one already, out of another heap
or out of its own. There is just enough room for both, once the heap has been collected. -/
theorem deliver_exact_hoarder :
    (∃ b, deliver ⟨0⟩ .knot (.object .tuple (.ofNat 24)) .hoarder = .ok () b ∧
      b.mailbox.messages.size = 1) ∧
    ∃ b, deliverLocal ⟨0⟩ (.object .tuple (.ofNat 24)) .hoarder = .ok () b ∧
      b.mailbox.messages.size = 1 := by
  have hmessage : Value.Match (.single .tuple (.ofNat 24) (.ofNat 24)) (.object .tuple (.ofNat 24))
      (.object .tuple (.ofNat 24)) := .object ⟨rfl, rfl, rfl⟩
  obtain ⟨⟨live, graph, hlive, hgraph, -, -, b, γ, outcome⟩, own⟩ :=
    deliver_exact (x := ⟨.object .tuple (.ofNat 24), .knot⟩) Actor.sound_hoarder ⟨0⟩
      ⟨_, Heap.iso_knot, hmessage⟩
  have htotal : Actor.hoarder.heap.memory.total live = 40 :=
    Heap.total_knot (fun v => by simp [Actor.roots, Actor.hoarder, Actor.create, Mailbox.empty])
      hlive
  have htotal' : Heap.knot.memory.total graph = 40 := Heap.total_knot (fun _ => Iff.rfl) hgraph
  have accepted : Actor.hoarder.refusal? ⟨0⟩ (.object .tuple (.ofNat 24)) 40 40 = none := by
    decide +kernel
  rw [htotal, htotal', accepted] at outcome
  obtain ⟨run, -, earlier, copy, -, hmessages, hearlier, -, -⟩ := outcome
  have hsize : b.mailbox.messages.size = 1 := by
    rw [hmessages, Array.size_push, ← hearlier.size]
    rfl
  have same : Together _ _ _ _ _ _ := own _ _ Heap.iso_knot hmessage
  refine ⟨⟨b, run, hsize⟩, ?_⟩
  cases hown : deliverLocal ⟨0⟩ (.object .tuple (.ofNat 24)) .hoarder with
  | ok _ c =>
    obtain ⟨_, _, run', τ, hcb⟩ := same.of_ok hown
    cases run.symm.trans run'
    exact ⟨c, rfl, hcb.messages.size.trans hsize⟩
  | error e c =>
    obtain ⟨_, _, run', -⟩ := same.of_error hown
    cases run.symm.trans run'

end ActorM

end ActorMachine
