import ActorMachine.Proofs.Answering
import ActorMachine.Proofs.Arrivals

/-!
# The life of an actor as its program sees it

A deed is the least that can happen to an actor: an operation of the library is called, an object is
made, the heap is collected, a message comes, or what the actor has is put in other places (`Deed`).
`Sight.Sees` says what a program sees of a deed. Whatever deeds make up the life of an actor, a
program sees its course (`Actor.Lives.course`), and its objects become what they should
(`Sight.Course.becomes`).
-/

namespace ActorMachine

open Memory

/-- Where a program takes a value from that it puts somewhere: nowhere, if it refers to nothing, or
from what it has. -/
inductive Source where
  | inline (v : Value) (inline : v.ref? = none)
  | stack (position : Nat)
  | message (position : Nat)

def Source.integer (n : Int64) : Source := .inline (.integer n) rfl

/-- The value that is taken. -/
def Source.value (a : Actor) : Source → Value
  | inline v _ => v
  | stack i => a.stack.getD i .nil
  | message i => a.mailbox.messages.getD i .nil

/-- What a program sees of it. -/
def Source.item (V : Sight) : Source → Item
  | inline v _ => .inline v
  | stack i => V.stack.getD i .nil
  | message i => V.messages.getD i .nil

/-- The least that can happen to an actor. -/
inductive Deed where
  /-- Stack and mailbox are filled anew, and all but the heap is as in another actor. -/
  | arrange (shell : Actor) (stack messages : List Source)
  /-- An operation is called with the values below a height of the stack, and its answer put on
  top. -/
  | call (op : Operation) (height count : Nat)
  /-- A new string is put on the stack. -/
  | string (bytes : ByteArray)
  /-- A pair of a number and the value on top takes the place of the value. -/
  | pair (first : Int64)
  | collect (bytes : Nat)
  | deliver (self : Pid) (letter : Letter)
  /-- The stack is cut to a height, and a value delivered that may have been above it. -/
  | deliverLocal (self : Pid) (message : Source) (height : Nat)
  | deliverBytes (self : Pid) (bytes : ByteArray)

/-- The actor with its stack and mailbox filled, and all but the heap as in another one. -/
def Actor.arranged (a shell : Actor) (stack messages : List Source) : Actor :=
  { shell with
    heap := a.heap
    stack := (stack.map (Source.value a)).toArray
    mailbox := { shell.mailbox with messages := (messages.map (Source.value a)).toArray } }

variable {κ : Type} [Kernel κ]

/-- What happens. -/
def Deed.perform : Deed → Exec κ Unit
  | arrange shell stack messages => (modify (Actor.arranged · shell stack messages) : ActorM Unit)
  | call op height count => do ActorM.pushRaw (← op.run (.below height count)).result
  | string bytes => (do ActorM.pushRaw (← ActorM.newString bytes) : ActorM Unit)
  | pair first => (do ActorM.pushRaw (← ActorM.pairWithTop (.integer first)) : ActorM Unit)
  | collect bytes => ActorM.collect bytes
  | deliver self letter => ActorM.deliver self letter.source letter.message
  | deliverLocal self message height => (do
      let v := message.value (← get)
      ActorM.truncate height
      ActorM.deliverLocal self v : ActorM Unit)
  | deliverBytes self bytes => ActorM.deliverBytes self bytes

/-! ## What a program sees -/

/-- The heap of a letter holds objects that a program knows, and the message is an item. -/
def Letter.Shows (letter : Letter) (W : Contents) (x : Item) : Prop :=
  W.Sound ∧ ∃ ν σ, Named ν W σ letter.source.memory ∧ x.At ν letter.message

namespace Sight

/-- A new object is put on the stack. -/
def make (V : Sight) (c : Content) : Sight where
  objects := V.objects ++ [c]
  stack := V.stack ++ [.object c.shape V.objects.length]
  messages := V.messages

/-- Copies of the objects of a letter are made, and the copy of the message put into the mailbox. -/
def receive (V : Sight) (W : Contents) (x : Item) : Sight where
  objects := V.objects ++ W.map (Content.shift V.objects.length)
  stack := V.stack
  messages := V.messages ++ [x.shift V.objects.length]

/-- The stack is cut to a height. -/
def cut (V : Sight) (height : Nat) : Sight := { V with stack := V.stack.take height }

/-- What a program sees of a deed, and what events that has been for the objects. What fails leaves
everything as it was, but for the values that it takes from the stack. -/
inductive Sees (V : Sight) : Deed → Except Fault Unit → List Event → Sight → Prop
  | arranged (shell : Actor) (stack messages : List Source) :
    Sees V (.arrange shell stack messages) (.ok ()) []
      { V with stack := stack.map (Source.item V), messages := messages.map (Source.item V) }
  | answered {op : Operation} {height count : Nat} {x : Item} {M : Contents}
    (responds : V.objects.Responds op (V.arguments height count) (.ok x) M) :
    Sees V (.call op height count) (.ok ()) [.called op (V.arguments height count) (.ok x)]
      { V with objects := M, stack := V.stack ++ [x] }
  | refused {op : Operation} {height count : Nat} {e : Fault}
    (responds : V.objects.Responds op (V.arguments height count) (.error e) V.objects) :
    Sees V (.call op height count) (.error e) [.called op (V.arguments height count) (.error e)] V
  | string (bytes : ByteArray) :
    Sees V (.string bytes) (.ok ()) [.made [.string bytes]] (V.make (.string bytes))
  | stringFull (bytes : ByteArray) (e : Fault) : Sees V (.string bytes) (.error e) [] V
  | pair (first : Int64) :
    Sees V (.pair first) (.ok ()) [.made [.tuple [.inline (.integer first), V.stack.getLastD .nil]]]
      (make { V with stack := V.stack.dropLast }
        (.tuple [.inline (.integer first), V.stack.getLastD .nil]))
  | pairFull (first : Int64) (e : Fault) :
    Sees V (.pair first) (.error e) [] { V with stack := V.stack.dropLast }
  | collected (bytes : Nat) (outcome : Except Fault Unit) : Sees V (.collect bytes) outcome [] V
  | delivered (self : Pid) {letter : Letter} {W : Contents} {x : Item} (shows : letter.Shows W x) :
    Sees V (.deliver self letter) (.ok ()) [.made (W.map (Content.shift V.objects.length))]
      (V.receive W x)
  | undelivered (self : Pid) (letter : Letter) (e : Fault) :
    Sees V (.deliver self letter) (.error e) [] V
  | deliveredLocal (self : Pid) (message : Source) (height : Nat) :
    Sees V (.deliverLocal self message height) (.ok ())
      [.made (V.objects.map (Content.shift V.objects.length))]
      ((V.cut height).receive V.objects (message.item V))
  | undeliveredLocal (self : Pid) (message : Source) (height : Nat) (e : Fault) :
    Sees V (.deliverLocal self message height) (.error e) [] (V.cut height)
  | deliveredBytes (self : Pid) (bytes : ByteArray) :
    Sees V (.deliverBytes self bytes) (.ok ()) [.made [.string bytes]] { V with
      objects := V.objects ++ [.string bytes]
      messages := V.messages ++ [.object .string V.objects.length] }
  | undeliveredBytes (self : Pid) (bytes : ByteArray) (e : Fault) :
    Sees V (.deliverBytes self bytes) (.error e) [] V

end Sight

/-- All that a message brings is known. -/
def Deed.Sound : Deed → Prop
  | deliver _ letter => ∃ W x, letter.Shows W x
  | _ => True

namespace Item.AllAt

variable {ν : Naming}

theorem of_list {α : Type} {item : α → Item} {value : α → Value} (h : ∀ x, (item x).At ν (value x))
    (xs : List α) :
    AllAt ν (xs.map item) (xs.map value).toArray where
  size := by simp
  get i x v hx hv := by
    rw [List.getElem?_toArray, List.getElem?_map] at hv
    rw [List.getElem?_map] at hx
    cases hi : xs[i]? with
    | none =>
      rw [hi] at hx
      cases hx
    | some y =>
      rw [hi] at hx hv
      cases hx
      cases hv
      exact h y

theorem take {xs : List Item} {vs : Array Value} (h : AllAt ν xs vs) (height : Nat) :
    AllAt ν (xs.take height) (vs.shrink height) where
  size := by rw [List.length_take, Array.size_shrink, h.size]
  get i x v hx hv := by
    rw [Array.shrink_eq_take, Array.getElem?_extract] at hv
    rw [List.getElem?_take] at hx
    split at hx
    · split at hv
      · rw [Nat.zero_add] at hv
        exact h.get i x v hx hv
      · cases hv
    · cases hx

/-- The item on top is that of the value on top. -/
theorem top {xs : List Item} {vs : Array Value} (h : AllAt ν xs vs) :
    (xs.getLastD .nil).At ν (vs.back?.getD .nil) := by
  rw [List.getLastD_eq_getLast?, List.getLast?_eq_getElem?, Array.back?_eq_getElem?, h.size]
  have := h.getD (vs.size - 1)
  rwa [List.getD_eq_getElem?_getD, Array.getD_eq_getD_getElem?] at this

end Item.AllAt

namespace Actor.ShowsAt

open ActorM (collect newString pairWithTop fillPair newTupleRef)

variable {ν ν' : Naming} {σ σ' γ : Matching} {V : Sight} {a b : Actor} (h : a.ShowsAt ν σ V)

include h

theorem at_value (x : Source) : (x.item V).At ν (x.value a) := by
  cases x with
  | inline v hv => exact .inline hv
  | stack i => exact h.stack.getD i
  | message i => exact h.messages.getD i

theorem arranged (shell : Actor) (stack messages : List Source) :
    ShowsAt ν σ
      { V with stack := stack.map (Source.item V), messages := messages.map (Source.item V) }
      (a.arranged shell stack messages) where
  bounded := h.bounded
  named := h.named
  stack := .of_list h.at_value stack
  messages := .of_list h.at_value messages

theorem cut (height : Nat) : ShowsAt ν σ (V.cut height) { a with stack := a.stack.shrink height } :=
  { h with stack := h.stack.take height }

theorem ends_collect (bytes : Nat) :
    Ends (collect bytes) a (fun _ b => ∃ ν σ, b.ShowsAt ν σ V) fun _ b =>
      ∃ ν σ, b.ShowsAt ν σ V := by
  have sound := h.equivalent
  obtain ⟨b, γ, refs, moved, -, run, -⟩ := ActorM.collect_spec sound.iso.left sound.iso.closedLeft
    (fun _ _ => sound.matched_of_mem) sound.left bytes
  unfold Ends
  rw [run]
  split
  · rename_i heq
    split at heq
    · cases heq
    · cases heq
      exact ⟨_, _, h.move moved⟩
  · rename_i heq
    split at heq
    · cases heq
      exact ⟨_, _, h.move moved⟩
    · cases heq

/-- A new string is one of the objects. -/
theorem ends_string (bytes : ByteArray) :
    Ends (newString bytes) a
      (fun v b => ∃ ν σ, b.ShowsAt ν σ { V with objects := V.objects ++ [.string bytes] } ∧
        (Item.object .string V.objects.length).At ν v)
      fun _ b => ∃ ν σ, b.ShowsAt ν σ V := by
  rw [newString, ActorM.alloc, bind_assoc]
  refine (h.ends_make (ActorM.makes_string bytes) (.string _ _)).mono ?_ ?_
  · rintro _ b ⟨ν', σ', p, rfl, hp, shows⟩
    exact ⟨ν', σ', shows, .object hp⟩
  · rintro e b ⟨-, shows⟩
    exact shows

/-- What a copy of a letter adds to what is seen. -/
theorem receives {letter : Letter} {W : Contents} {x : Item}
    (named : Named ν' W σ' letter.source.memory) (hx : x.At ν' letter.message)
    (received : a.Receives γ [letter] b) (bounded : b.heap.Bounded) :
    ∃ ν σ, b.ShowsAt ν σ (V.receive W x) := by
  obtain ⟨earlier, copies, _, hmessages, hearlier, hcopies⟩ := received.mailbox
  obtain ⟨copy, τ, rfl, iso, hcopy, apart⟩ := hcopies.of_singleton
  have joined := (h.named.move received.iso).join (named.move iso) (by
    rintro s r s' r' ⟨u, -, hr⟩ ⟨u', -, hr'⟩
    exact apart ⟨u, hr⟩ ⟨u', hr'⟩)
  refine ⟨_, _, bounded, joined, (h.stack.move received.stack).mono .inl, ?_⟩
  rw [hmessages, ← Array.push_eq_append]
  exact ((h.messages.move hearlier).mono .inl).push (hx.move hcopy).shift

/-- Delivering a letter adds a copy of it, if it succeeds. -/
theorem ends_deliver (self : Pid) {letter : Letter} {W : Contents} {x : Item}
    (named : Named ν' W σ' letter.source.memory) (hx : x.At ν' letter.message) :
    Ends (ActorM.deliver self letter.source letter.message) a
      (fun _ b => ∃ ν σ, b.ShowsAt ν σ (V.receive W x)) fun _ b => ∃ ν σ, b.ShowsAt ν σ V := by
  have sound : a.Sound := ⟨σ, h.equivalent⟩
  have hletter : letter.message.Match σ' letter.message := hx.still named.within
  obtain ⟨live, graph, -, -, -, b, γ, outcome⟩ :=
    ActorM.deliver_outcome sound self (x := letter) ⟨σ', named.iso, hletter⟩
  unfold Ends
  cases hrefusal : a.refusal? self letter.message (a.heap.memory.total live)
    (letter.source.memory.total graph) with
  | some e =>
    rw [hrefusal] at outcome
    rw [outcome.1]
    exact ⟨_, _, h.move outcome.2.1⟩
  | none =>
    rw [hrefusal] at outcome
    obtain ⟨run, received⟩ := outcome
    obtain ⟨_, c, run', τ, hbc⟩ :=
      (ActorM.together_deliver sound self (y := letter) (x := letter) named.iso hletter).of_ok run
    rw [run]
    exact h.receives named hx received hbc.left

/-- Delivering a value of one's own copies it as any other letter. -/
theorem ends_deliverLocal (self : Pid) {x : Item} {v : Value} (hx : x.At ν v) :
    Ends (ActorM.deliverLocal self v) a (fun _ b => ∃ ν σ, b.ShowsAt ν σ (V.receive V.objects x))
      fun _ b => ∃ ν σ, b.ShowsAt ν σ V := by
  have other := Actor.ShowsAt.ends_deliver h self (x := x)
    (show Named ν V.objects σ (Letter.mk v a.heap).source.memory from h.named) hx
  have same := ActorM.together_deliverLocal ⟨σ, h.equivalent⟩ self (x := ⟨v, a.heap⟩) h.named.iso
    (hx.still h.named.within)
  refine .intro (fun _ b run => ?_) fun e b run => ?_
  · obtain ⟨_, c, run', τ, hbc⟩ := same.of_ok run
    obtain ⟨_, _, shows⟩ := other.of_ok run'
    exact ⟨_, _, shows.move hbc.symm⟩
  · obtain ⟨_, c, run', -, τ, hbc⟩ := same.of_error run
    obtain ⟨_, _, shows⟩ := other.of_error run'
    exact ⟨_, _, shows.move hbc.symm⟩

theorem ends_deliverBytes (self : Pid) (bytes : ByteArray) :
    Ends (ActorM.deliverBytes self bytes) a
      (fun _ b => ∃ ν σ, b.ShowsAt ν σ { V with
        objects := V.objects ++ [.string bytes]
        messages := V.messages ++ [.object .string V.objects.length] })
      fun _ b => ∃ ν σ, b.ShowsAt ν σ V := by
  refine .bind ((ActorM.ends_checkMailbox self a).mono ?_ ?_)
  · rintro _ _ ⟨-, rfl⟩
    refine .bind ((h.ends_string bytes).mono ?_ fun _ _ h => h)
    intro v b ⟨ν', σ', shows, hv⟩
    exact .modify ⟨ν', σ', { shows with messages := shows.messages.push hv }⟩
  · rintro _ _ ⟨-, rfl⟩
    exact ⟨ν, σ, h⟩

/-- A pair of a number and the value on top is one of the objects, and the value is taken away. -/
theorem ends_pair (first : Int64) :
    Ends (pairWithTop (.integer first)) a
      (fun v b => ∃ ν σ, b.ShowsAt ν σ
          { V with
            objects := V.objects ++ [.tuple [.inline (.integer first), V.stack.getLastD .nil]]
            stack := V.stack.dropLast } ∧
        (Item.object .tuple V.objects.length).At ν v)
      fun _ b => ∃ ν σ, b.ShowsAt ν σ { V with stack := V.stack.dropLast } := by
  have make := h.ends_make (ActorM.makes_tuple 2) (.tuple 2 _)
  rw [← bind_assoc, ← ActorM.alloc, ← newTupleRef] at make
  cases run : newTupleRef 2 a with
  | error e b =>
    obtain ⟨-, ν', σ', shows⟩ := make.of_error run
    exact .fails (ActorM.pairWithTop_of_error run _) ⟨ν', σ', shows.pop⟩
  | ok p b =>
    obtain ⟨ν', σ', _, rfl, hp, shows⟩ := make.of_ok run
    -- The pair is the last object, so that its two elements can be set one after the other.
    have hset : ∀ xs ys, (V.objects ++ [Content.tuple xs]).set V.objects.length (.tuple ys) =
        V.objects ++ [.tuple ys] := fun xs ys => by
      rw [List.set_append_right _ _ (Nat.le_refl _), Nat.sub_self]
      rfl
    have hget : ∀ xs, (V.objects ++ [Content.tuple xs])[V.objects.length]? = some (.tuple xs) :=
      fun xs => by
      rw [List.getElem?_append_right (Nat.le_refl _), Nat.sub_self]
      rfl
    obtain ⟨m₁, run₁, set₁⟩ := shows.named.tupleSet (h := b.heap) hp (hget _) (.inline rfl) 0
      (x := .inline (.integer first)) (v := .integer first)
    rw [if_pos (by decide)] at run₁
    obtain ⟨size₁, named₁⟩ := set₁ (by decide)
    rw [hset] at named₁
    obtain ⟨m₂, run₂, set₂⟩ := Named.tupleSet (h := { b.heap with memory := m₁ }) named₁ hp (hget _)
      shows.stack.top 1
    have hwithin : Item.Within
        (List.set (List.replicate 2 Item.nil) (0 : Int).toNat (.inline (.integer first))) 1 :=
      ⟨by decide, by rw [List.length_set]; decide⟩
    rw [if_pos hwithin] at run₂
    obtain ⟨size₂, named₂⟩ := set₂ hwithin
    rw [hset] at named₂
    have hfill : fillPair p (.integer first) b = .ok (.object .tuple p)
        { b with stack := b.stack.pop, heap := { b.heap with memory := m₂ } } :=
      (bind_of_ok (ActorM.onHeap_ok (a := { b with stack := b.stack.pop }) run₁)).trans
        (bind_of_ok (ActorM.onHeap_ok (a := { b with
          stack := b.stack.pop
          heap := { b.heap with memory := m₁ } }) run₂))
    refine .returns ((ActorM.pairWithTop_of_ok run _).trans hfill) ⟨ν', σ', ?_, .object hp⟩
    exact shows.pop.rewrite named₂ (size₂.trans size₁)

end Actor.ShowsAt

/-! ## Deeds -/

/-- A program sees of every deed what it should. -/
theorem Deed.sees {ν : Naming} {σ : Matching} {V : Sight} {s : Session κ}
    (h : s.actor.ShowsAt ν σ V) {d : Deed} (sound : d.Sound) :
    Ends d.perform s
      (fun _ t => ∃ events V', V.Sees d (.ok ()) events V' ∧ ∃ ν σ, t.actor.ShowsAt ν σ V')
      fun e t => ∃ events V', V.Sees d (.error e) events V' ∧ ∃ ν σ, t.actor.ShowsAt ν σ V' := by
  cases d with
  | arrange shell stack messages =>
    refine Exec.ends_onActor (m := modify (Actor.arranged · shell stack messages)) ?_
    exact .modify ⟨_, _, .arranged shell stack messages, ν, σ, h.arranged shell stack messages⟩
  | call op height count =>
    refine .bind ((Operation.serves h height count op).mono ?_ ?_)
    · intro answer t ⟨ν', σ', x, M, shows, hx, responds⟩
      exact Exec.ends_onActor (.modify ⟨_, _, .answered responds, ν', σ', shows.push hx⟩)
    · intro e t ⟨ν', σ', shows, responds⟩
      exact ⟨_, _, .refused responds, ν', σ', shows⟩
  | string bytes =>
    refine Exec.ends_onActor (.bind ((h.ends_string bytes).mono ?_ ?_))
    · intro v b ⟨ν', σ', shows, hv⟩
      exact .modify ⟨_, _, .string bytes, ν', σ', shows.push hv⟩
    · intro e b shows
      exact ⟨_, _, .stringFull bytes e, shows⟩
  | pair first =>
    refine Exec.ends_onActor (.bind ((h.ends_pair first).mono ?_ ?_))
    · intro v b ⟨ν', σ', shows, hv⟩
      exact .modify ⟨_, _, .pair first, ν', σ', shows.push hv⟩
    · intro e b shows
      exact ⟨_, _, .pairFull first e, shows⟩
  | collect bytes =>
    refine Exec.ends_onActor ((h.ends_collect bytes).mono ?_ ?_)
    · exact fun _ b shows => ⟨_, _, .collected bytes _, shows⟩
    · exact fun e b shows => ⟨_, _, .collected bytes _, shows⟩
  | deliver self letter =>
    obtain ⟨W, x, shows⟩ := sound
    obtain ⟨ν', σ', named, hx⟩ := shows.2
    refine Exec.ends_onActor ((h.ends_deliver self named hx).mono ?_ ?_)
    · exact fun _ b after => ⟨_, _, .delivered self shows, after⟩
    · exact fun e b after => ⟨_, _, .undelivered self letter e, after⟩
  | deliverLocal self message height =>
    refine Exec.ends_onActor
      (((h.cut height).ends_deliverLocal self (h.at_value message)).mono ?_ ?_)
    · exact fun _ b after => ⟨_, _, .deliveredLocal self message height, after⟩
    · exact fun e b after => ⟨_, _, .undeliveredLocal self message height e, after⟩
  | deliverBytes self bytes =>
    refine Exec.ends_onActor ((h.ends_deliverBytes self bytes).mono ?_ ?_)
    · exact fun _ b after => ⟨_, _, .deliveredBytes self bytes, after⟩
    · exact fun e b after => ⟨_, _, .undeliveredBytes self bytes e, after⟩

/-- What is somewhere is known. -/
theorem Item.At.known {ν : Naming} {M : Contents} {σ : Matching} {m : Memory} {x : Item} {v : Value}
    (h : x.At ν v) (named : Named ν M σ m) : x.Known M := by
  cases h with
  | inline _ => trivial
  | object hi => exact named.lt_length hi

/-- All items are of objects that have been made, and no table has two equal keys. -/
structure Sight.Sound (V : Sight) : Prop where
  objects : V.objects.Sound
  stack : ∀ x ∈ V.stack, x.Known V.objects
  messages : ∀ x ∈ V.messages, x.Known V.objects

namespace Sight

variable {V V' : Sight} {d : Deed} {outcome : Except Fault Unit} {events : List Event}

namespace Sound

theorem item (h : V.Sound) (x : Source) : (x.item V).Known V.objects := by
  cases x with
  | inline v hv => trivial
  | stack i => exact Contents.known_getD h.stack i
  | message i => exact Contents.known_getD h.messages i

theorem arguments (h : V.Sound) (height count : Nat) :
    ∀ x ∈ V.arguments height count, x.Known V.objects := by
  intro x hx
  obtain ⟨i, -, rfl⟩ := List.mem_map.mp hx
  exact Contents.known_getD h.stack _

theorem cut (h : V.Sound) (height : Nat) : (V.cut height).Sound :=
  { h with stack := fun x hx => h.stack x (List.mem_of_mem_take hx) }

theorem pop (h : V.Sound) : Sound { V with stack := V.stack.dropLast } :=
  { h with stack := fun x hx => h.stack x (List.dropLast_subset _ hx) }

/-- What has been known stays known when objects are added. -/
theorem grow (h : V.Sound) {M : Contents} (sound : M.Sound) (grows : V.objects.Grows M) :
    Sound { V with objects := M } where
  objects := sound
  stack x hx := grows.known (h.stack x hx)
  messages x hx := grows.known (h.messages x hx)

theorem push (h : V.Sound) {x : Item} (known : x.Known V.objects) :
    Sound { V with stack := V.stack ++ [x] } :=
  { h with stack := fun y hy => (List.mem_append.mp hy).elim (h.stack y) fun hy =>
      List.mem_singleton.mp hy ▸ known }

theorem pushMessage (h : V.Sound) {x : Item} (known : x.Known V.objects) :
    Sound { V with messages := V.messages ++ [x] } :=
  { h with messages := fun y hy => (List.mem_append.mp hy).elim (h.messages y) fun hy =>
      List.mem_singleton.mp hy ▸ known }

theorem receive (h : V.Sound) {W : Contents} {x : Item} (sound : W.Sound) (known : x.Known W) :
    (V.receive W x).Sound :=
  (h.grow (h.objects.join sound) (.append _ _)).pushMessage (Contents.known_shift known)

end Sound

/-- The last object is known. -/
theorem known_last (M : Contents) (s : Shape) (c : Content) :
    (Item.object s M.length).Known (M ++ [c]) := by
  show M.length < (M ++ [c]).length
  rw [List.length_append]
  exact Nat.lt_succ_self _

/-- What a program sees of a deed is known, and is what has become of the objects. -/
theorem Sees.becomes (h : V.Sees d outcome events V') (sound : V.Sound) :
    V.objects.Becomes events V'.objects ∧ V'.Sound := by
  have made : ∀ {objects : Contents}, (V.objects ++ objects).Sound →
      V.objects.Becomes [.made objects] (V.objects ++ objects) := fun h => .snoc .refl (.made h)
  have string := sound.objects.addString
  cases h with
  | arranged shell stack messages =>
    refine ⟨.refl, sound.objects, fun x hx => ?_, fun x hx => ?_⟩
    · obtain ⟨y, -, rfl⟩ := List.mem_map.mp hx
      exact sound.item y
    · obtain ⟨y, -, rfl⟩ := List.mem_map.mp hx
      exact sound.item y
  | answered responds =>
    obtain ⟨after, hx⟩ := responds.sound sound.objects (sound.arguments _ _)
    exact ⟨.snoc .refl (.called (sound.arguments _ _) responds),
      (sound.grow after responds.grows).push (hx _ rfl)⟩
  | refused responds => exact ⟨.snoc .refl (.called (sound.arguments _ _) responds), sound⟩
  | string bytes =>
    exact ⟨made (string bytes), (sound.grow (string bytes) (.append _ _)).push (known_last _ _ _)⟩
  | pair first =>
    have htop : (V.stack.getLastD .nil).Known V.objects := by
      rw [List.getLastD_eq_getLast?, List.getLast?_eq_getElem?]
      have := Contents.known_getD sound.stack (V.stack.length - 1)
      rwa [List.getD_eq_getElem?_getD] at this
    have after :
        (V.objects ++ [Content.tuple [.inline (.integer first), V.stack.getLastD .nil]]).Sound := by
      refine sound.objects.snoc (fun x hx => ?_) nofun
      obtain rfl | hx := List.mem_cons.mp hx
      · trivial
      · obtain rfl := List.mem_singleton.mp hx
        exact Contents.known_append htop
    exact ⟨made after, (sound.pop.grow after (.append _ _)).push (known_last _ _ _)⟩
  | delivered self shows =>
    obtain ⟨hW, ν, σ, named, hx⟩ := shows
    exact ⟨made (sound.objects.join hW), sound.receive hW (hx.known named)⟩
  | deliveredLocal self message height =>
    exact ⟨made (sound.objects.join sound.objects),
      (sound.cut height).receive sound.objects (sound.item message)⟩
  | deliveredBytes self bytes =>
    exact ⟨made (string bytes), (sound.grow (string bytes) (.append _ _)).pushMessage
      (known_last _ _ _)⟩
  | pairFull => exact ⟨.refl, sound.pop⟩
  | undeliveredLocal self message height e => exact ⟨.refl, sound.cut height⟩
  | stringFull | collected | undelivered | undeliveredBytes => exact ⟨.refl, sound⟩

/-- What a program sees of some deeds, one after the other. -/
inductive Course (V : Sight) : List (Deed × Except Fault Unit) → List Event → Sight → Prop
  | refl : Course V [] [] V
  | snoc {deeds : List (Deed × Except Fault Unit)} {events events' : List Event} {U U' : Sight}
    {d : Deed} {outcome : Except Fault Unit} (before : Course V deeds events U)
    (last : U.Sees d outcome events' U') :
    Course V (deeds ++ [(d, outcome)]) (events ++ events') U'

theorem Course.becomes {deeds : List (Deed × Except Fault Unit)} (h : V.Course deeds events V')
    (sound : V.Sound) :
    V.objects.Becomes events V'.objects ∧ V'.Sound := by
  induction h with
  | refl => exact ⟨.refl, sound⟩
  | snoc _ last ih =>
    obtain ⟨after, sound'⟩ := last.becomes ih.2
    exact ⟨ih.1.trans after, sound'⟩

end Sight

namespace Actor

/-- A well-formed actor shows a sight: its objects are in its heap, with their stores hidden, and
the values that it has are those of the items. -/
def Shows (V : Sight) (a : Actor) : Prop :=
  V.Sound ∧ ∃ ν σ, a.ShowsAt ν σ V

/-- What may become of an actor by some deeds, whether they succeed or fail, and whatever the rest
of the system is like meanwhile. -/
inductive Lives (κ : Type) [Kernel κ] (a : Actor) : List (Deed × Except Fault Unit) → Actor → Prop
  | refl : Lives κ a [] a
  | did {deeds : List (Deed × Except Fault Unit)} {b : Actor} {d : Deed} {k : κ} {t : Session κ}
    (before : Lives κ a deeds b) (sound : d.Sound) (run : d.perform ⟨b, k⟩ = .ok () t) :
    Lives κ a (deeds ++ [(d, .ok ())]) t.actor
  | failed {deeds : List (Deed × Except Fault Unit)} {b : Actor} {d : Deed} {k : κ} {e : Fault}
    {t : Session κ} (before : Lives κ a deeds b) (sound : d.Sound)
    (run : d.perform ⟨b, k⟩ = .error e t) :
    Lives κ a (deeds ++ [(d, .error e)]) t.actor

/-- A program sees a course of every life of its actor. -/
theorem Lives.course {a b : Actor} {V : Sight} {deeds : List (Deed × Except Fault Unit)}
    (life : Lives κ a deeds b) (shows : a.Shows V) :
    ∃ events V', V.Course deeds events V' ∧ b.Shows V' := by
  obtain ⟨sound, ν, σ, first⟩ := shows
  suffices h : ∃ events V', V.Course deeds events V' ∧ ∃ ν σ, b.ShowsAt ν σ V' by
    obtain ⟨events, V', course, shows⟩ := h
    exact ⟨events, V', course, (course.becomes sound).2, shows⟩
  induction life with
  | refl => exact ⟨[], V, .refl, ν, σ, first⟩
  | did _ hd run ih =>
    obtain ⟨events, U, course, _, _, shows⟩ := ih
    obtain ⟨events', V', sees, after⟩ := (Deed.sees (s := ⟨_, _⟩) shows hd).of_ok run
    exact ⟨_, _, course.snoc sees, after⟩
  | failed _ hd run ih =>
    obtain ⟨events, U, course, _, _, shows⟩ := ih
    obtain ⟨events', V', sees, after⟩ := (Deed.sees (s := ⟨_, _⟩) shows hd).of_error run
    exact ⟨_, _, course.snoc sees, after⟩

/-- Nothing is seen of an actor that has done nothing yet. -/
theorem shows_create (config : ActorConfig) : (create config).Shows ⟨[], [], []⟩ := by
  refine ⟨⟨⟨nofun, nofun⟩, nofun, nofun⟩, fun _ _ _ => False, .empty, Heap.Bounded.create _ _, ?_,
    .nil _, .nil _⟩
  exact .nameless (.empty _ _) fun h => h.elim

/-- The actor after some deeds, if they all succeed in a world. -/
def through? (k : κ) (a : Actor) : List Deed → Option Actor
  | [] => some a
  | d :: deeds =>
    match completes? d.perform ⟨a, k⟩ with
    | some t => t.actor.through? k deeds
    | none => none

/-- Deeds that all succeed make up a life. -/
theorem Lives.through {a b c : Actor} {k : κ} {past : List (Deed × Except Fault Unit)}
    {deeds : List Deed} (before : Lives κ a past b) (sound : ∀ d ∈ deeds, d.Sound)
    (run : b.through? k deeds = some c) :
    Lives κ a (past ++ deeds.map (·, .ok ())) c := by
  induction deeds generalizing past b with
  | nil =>
    cases run
    rwa [List.map_nil, List.append_nil]
  | cons d deeds ih =>
    unfold through? at run
    split at run
    · rename_i t first
      rw [List.map_cons, List.append_cons]
      exact ih (.did before (sound d List.mem_cons_self) (eq_ok_of_completes? first))
        (fun d hd => sound d (List.mem_cons_of_mem _ hd)) run
    · cases run

end Actor

end ActorMachine
