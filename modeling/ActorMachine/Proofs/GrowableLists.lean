import ActorMachine.Proofs.Deeds

/-!
# Arrays are growable lists

In every life of an actor, whatever else happens to it, an array is a list: pushes that succeed
append to it, sets that succeed replace one of its elements, and nothing else changes it
(`Contents.ListAt`). Its calls answer what the list says. No program gets hold of the store behind
it (`Actor.Lives.arrays_are_lists`).
-/

namespace ActorMachine

/-- The operations on arrays that there are. -/
def Operation.OnArrays (op : Operation) : Prop :=
  op = .arrayPush ∨ op = .arrayGet ∨ op = .arraySet ∨ op = .arrayLength

/-- What an event makes of the elements of an array. -/
def Event.edit (i : Nat) (xs : List Item) : Event → List Item
  | .called .arrayPush args (.ok _) =>
    if args.getD 0 .nil = .object .array i then xs ++ [args.getD 1 .nil] else xs
  | .called .arraySet args (.ok _) =>
    if args.getD 0 .nil = .object .array i then
      match Item.integer args 1 with
      | .ok index => xs.set index.toNat (args.getD 2 .nil)
      | .error _ => xs
    else xs
  | _ => xs

/-- Whether an event is a push to an array that has succeeded. -/
def Event.pushes (i : Nat) : Event → Bool
  | .called .arrayPush args (.ok _) => args.getD 0 .nil = .object .array i
  | _ => false

/-- What calls answer whose first argument is an array with some elements. -/
inductive Item.ArrayAnswers (xs args : List Item) : Operation → Except Fault Item → Prop
  | push (given : 2 ≤ args.length) : ArrayAnswers xs args .arrayPush (.ok (.count (xs.length + 1)))
  | pushFull (given : 2 ≤ args.length) (requested limit : Nat) :
    ArrayAnswers xs args .arrayPush (.error (.heap (.outOfMemory requested limit)))
  | pushNothing {e : Fault} (missing : args.length < 2) (plain : e.Plain) :
    ArrayAnswers xs args .arrayPush (.error e)
  | get {index : Int} (given : Item.integer args 1 = .ok index) (within : Item.Within xs index) :
    ArrayAnswers xs args .arrayGet (.ok (xs.getD index.toNat .nil))
  | set {index : Int} (given : Item.integer args 1 = .ok index) (within : Item.Within xs index) :
    ArrayAnswers xs args .arraySet (.ok .nil)
  | outside {op : Operation} {index : Int} (indexed : op = .arrayGet ∨ op = .arraySet)
    (given : Item.integer args 1 = .ok index) (outside : ¬Item.Within xs index) :
    ArrayAnswers xs args op (.error (.heap (.indexOutOfBounds index xs.length)))
  | noIndex {op : Operation} {e : Fault} (indexed : op = .arrayGet ∨ op = .arraySet)
    (missing : Item.integer args 1 = .error .misuse)
    (plain : e.Plain) : ArrayAnswers xs args op (.error e)
  | length : ArrayAnswers xs args .arrayLength (.ok (.count xs.length))

theorem Item.integer_eq (args : List Item) (i : Nat) :
    (∃ n, Item.integer args i = .ok n) ∨ Item.integer args i = .error .misuse := by
  unfold Item.integer
  split
  · exact .inl ⟨_, rfl⟩
  · exact .inr rfl

namespace Contents

variable {M N N' : Contents} {op : Operation} {args : List Item}
    {outcome : Except Fault Item} {i : Nat} {xs : List Item} {events : List Event}

/-- What comes of a call with an index that must be within a list. -/
theorem Answers.indexed (h : N.Answers op args outcome N') (lean : ¬op.Allocates)
    {f : Int → Item × Contents}
    (call : N.call op args = Item.integer args 1 >>= fun n =>
      if Item.Within xs n then .ok (f n) else .error (.index n xs.length)) :
    (∃ n, Item.integer args 1 = .ok n ∧ Item.Within xs n ∧ outcome = .ok (f n).1 ∧ N' = (f n).2) ∨
    (∃ n, Item.integer args 1 = .ok n ∧ ¬Item.Within xs n ∧
      outcome = .error (.heap (.indexOutOfBounds n xs.length)) ∧ N' = N) ∨
    (Item.integer args 1 = .error .misuse ∧ ∃ e, outcome = .error e ∧ e.Plain ∧ N' = N) := by
  obtain ⟨n, hn⟩ | hn := Item.integer_eq args 1
  · rw [hn] at call
    by_cases within : Item.Within xs n
    · obtain ⟨rfl, rfl⟩ | ⟨allocates, -⟩ := h.of_ok (call.trans (if_pos within))
      · exact .inl ⟨n, hn, within, rfl, rfl⟩
      · exact absurd allocates lean
    · obtain ⟨rfl, rfl⟩ := h.of_index (call.trans (if_neg within))
      exact .inr (.inl ⟨n, hn, within, rfl, rfl⟩)
  · rw [hn] at call
    exact .inr (.inr ⟨hn, h.of_misuse call⟩)

/-- What a call does to the array that is its first argument. -/
theorem Answers.array (h : N.Answers op args outcome N') (on : op.OnArrays)
    (first : args.getD 0 .nil = .object .array i) (hc : N[i]? = some (.array xs)) :
    Item.ArrayAnswers xs args op outcome ∧
    N'[i]? = some (.array (Event.edit i xs (.called op args outcome))) := by
  have harray : N.array args = .ok (i, xs) := array_eq_ok.mpr ⟨first, hc⟩
  have hset : ∀ c, (N.set i c)[i]? = some c := fun c =>
    List.getElem?_set_self (List.getElem?_eq_some_iff.mp hc).1
  obtain rfl | rfl | rfl | rfl := on
  · -- A push, which needs the array and a value.
    by_cases few : args.length < 2
    · have call : N.call .arrayPush args = .error .misuse := by
        simp only [call, if_pos few]
        rfl
      obtain ⟨e, rfl, plain, rfl⟩ := h.of_misuse call
      exact ⟨.pushNothing few plain, hc⟩
    · have call : N.call .arrayPush args =
          .ok (.count (xs.length + 1), N.set i (.array (xs ++ [args.getD 1 .nil]))) := by
        simp only [call, if_neg few, harray]
        rfl
      obtain ⟨rfl, rfl⟩ | ⟨-, rfl, requested, limit, rfl⟩ := h.of_ok call
      · refine ⟨.push (Nat.le_of_not_lt few), ?_⟩
        rw [hset, Event.edit, if_pos first]
      · exact ⟨.pushFull (Nat.le_of_not_lt few) requested limit, hc⟩
  · -- The element at an index.
    have call : N.call .arrayGet args = Item.integer args 1 >>= fun n =>
        if Item.Within xs n then .ok (xs.getD n.toNat .nil, N) else
          .error (.index n xs.length) := by
      simp only [call, harray]
      refine congrArg (Item.integer args 1 >>= ·) (funext fun n => ?_)
      unfold Item.element
      split <;> rfl
    obtain ⟨n, hn, within, rfl, rfl⟩ | ⟨n, hn, outside, rfl, rfl⟩ | ⟨missing, e, rfl, plain, rfl⟩ :=
      h.indexed (by decide) call
    · exact ⟨.get hn within, hc⟩
    · exact ⟨.outside (.inl rfl) hn outside, hc⟩
    · exact ⟨.noIndex (.inl rfl) missing plain, hc⟩
  · -- Another element at an index.
    have call : N.call .arraySet args = Item.integer args 1 >>= fun n =>
        if Item.Within xs n then .ok (.nil, N.set i (.array (xs.set n.toNat (args.getD 2 .nil))))
        else .error (.index n xs.length) := by
      simp only [call, harray]
      refine congrArg (Item.integer args 1 >>= ·) (funext fun n => ?_)
      unfold Item.replace
      split <;> rfl
    obtain ⟨n, hn, within, rfl, rfl⟩ | ⟨n, hn, outside, rfl, rfl⟩ | ⟨missing, e, rfl, plain, rfl⟩ :=
      h.indexed (by decide) call
    · refine ⟨.set hn within, ?_⟩
      rw [hset, Event.edit, if_pos first, hn]
    · exact ⟨.outside (.inr rfl) hn outside, hc⟩
    · exact ⟨.noIndex (.inr rfl) missing plain, hc⟩
  · -- The length, which is asked for without room being made.
    have call : N.call .arrayLength args = .ok (.count xs.length, N) := by
      simp only [call, harray]
      rfl
    obtain ⟨rfl, rfl⟩ | ⟨allocates, -⟩ := h.of_ok call
    · exact ⟨.length, hc⟩
    · exact absurd allocates (by decide)

/-- What any event makes of an array. -/
theorem Meets.array {e : Event} (h : N.Meets e N') (hc : N[i]? = some (.array xs)) :
    N'[i]? = some (.array (e.edit i xs)) := by
  cases h with
  | @called op args outcome _ known responds =>
    by_cases altered : op.alters? = some .array ∧ args.getD 0 .nil = .object .array i
    · obtain ⟨alters, first⟩ := altered
      have on : op.OnArrays ∧ op.Collects := by
        cases op <;> cases alters
        · exact ⟨.inl rfl, by decide⟩
        · exact ⟨.inr (.inr (.inl rfl)), by decide⟩
      exact ((responds.answers on.2).array on.1 first hc).2
    · have hedit : Event.edit i xs (.called op args outcome) = xs := by
        unfold Event.edit
        split
        · rename_i heq
          cases heq
          exact if_neg fun first => altered ⟨rfl, first⟩
        · rename_i heq
          cases heq
          exact if_neg fun first => altered ⟨rfl, first⟩
        · rfl
      rw [hedit]
      exact responds.others hc altered
  | made =>
    rw [List.getElem?_append_left (List.getElem?_eq_some_iff.mp hc).1]
    exact hc

/-- An array is what its pushes and sets have made of it. -/
theorem Becomes.array (h : M.Becomes events N) (hc : M[i]? = some (.array xs)) :
    N[i]? = some (.array (events.foldl (Event.edit i) xs)) := by
  induction h with
  | refl => exact hc
  | snoc _ last ih =>
    rw [List.foldl_append]
    exact last.array ih

end Contents

/-- Only pushes make an array longer. -/
theorem Event.length_edit (i : Nat) (xs : List Item) (e : Event) :
    (e.edit i xs).length = xs.length + if e.pushes i then 1 else 0 := by
  cases e with
  | made => rfl
  | called op args outcome =>
    cases outcome with
    | error => cases op <;> rfl
    | ok x =>
      cases op with
      | arrayPush =>
        show (if args.getD 0 .nil = .object .array i then _ else _ : List Item).length =
          xs.length + if decide (args.getD 0 .nil = .object .array i) = true then 1 else 0
        by_cases first : args.getD 0 .nil = .object .array i
        · rw [if_pos first, if_pos (decide_eq_true first), List.length_append]
          rfl
        · rw [if_neg first, if_neg (by simpa using first)]
          rfl
      | arraySet =>
        show (if args.getD 0 .nil = .object .array i then _ else _ : List Item).length = xs.length
        split
        · split
          · exact List.length_set
          · rfl
        · rfl
      | _ => rfl

theorem Event.length_edits (i : Nat) (xs : List Item) (events : List Event) :
    (events.foldl (edit i) xs).length = xs.length + events.countP (pushes i) := by
  induction events generalizing xs with
  | nil => rfl
  | cons e events ih =>
    rw [List.foldl_cons, ih, length_edit, List.countP_cons]
    omega

/-- An array that has some elements is a list throughout some events: its calls answer what the list
says, and it has as many elements more as pushes have succeeded. -/
structure Contents.ListAt (i : Nat) (xs : List Item) (events : List Event)
    (N : Contents) : Prop where
  answered : ∀ (before : List Event) (op : Operation) (args : List Item)
    (outcome : Except Fault Item)
    (after : List Event), events = before ++ .called op args outcome :: after → op.OnArrays →
    args.getD 0 .nil = .object .array i →
    Item.ArrayAnswers (before.foldl (Event.edit i) xs) args op outcome
  elements : N[i]? = some (.array (events.foldl (Event.edit i) xs))
  length : (events.foldl (Event.edit i) xs).length = xs.length + events.countP (Event.pushes i)

theorem Contents.Becomes.listAt {M N : Contents} {events : List Event} {i : Nat} {xs : List Item}
    (h : M.Becomes events N) (hc : M[i]? = some (.array xs)) : ListAt i xs events N where
  answered before op args outcome after hevents on first := by
    subst hevents
    obtain ⟨L, L', past, -, responds, -⟩ := h.split_called
    have collects : op.Collects := by rcases on with rfl | rfl | rfl | rfl <;> decide
    exact ((responds.answers collects).array on first (past.array hc)).1
  elements := h.array hc
  length := Event.length_edits i xs events

/-- All arrays are lists throughout some events: those that have been there, those that messages
bring, and those that are made, which are empty at first. A call of one changes no other object. -/
structure Contents.Lists (M : Contents) (events : List Event) (N : Contents) : Prop where
  old : ∀ (i : Nat) (xs : List Item), M[i]? = some (.array xs) → ListAt i xs events N
  brought : ∀ (before : List Event) (objects : Contents) (after : List Event),
    events = before ++ .made objects :: after → ∃ L, M.Becomes before L ∧
      ∀ (j : Nat) (xs : List Item), objects[j]? = some (.array xs) →
        ListAt (L.length + j) xs after N
  new : ∀ (before : List Event) (args : List Item) (outcome : Except Fault Item)
    (after : List Event),
    events = before ++ .called .arrayNew args outcome :: after → ∃ L, M.Becomes before L ∧
      ((outcome = .ok (.object .array L.length) ∧ ListAt L.length [] after N) ∨
        ∃ requested limit, outcome = .error (.heap (.outOfMemory requested limit)))
  others : M.Undisturbed events N

theorem Contents.Becomes.lists {M N : Contents} {events : List Event} (h : M.Becomes events N) :
    M.Lists events N where
  old i xs hc := h.listAt hc
  brought before objects after hevents := by
    subst hevents
    obtain ⟨L, past, -, future⟩ := h.split_made
    refine ⟨L, past, fun j xs hc => future.listAt ?_⟩
    rw [List.getElem?_append_right (Nat.le_add_right _ _), Nat.add_sub_cancel_left, hc]
  new before args outcome after hevents := by
    subst hevents
    obtain ⟨L, L', past, -, responds, future⟩ := h.split_called
    refine ⟨L, past, ?_⟩
    obtain ⟨rfl, rfl⟩ | ⟨-, -, full⟩ := (responds.answers (by decide)).of_ok rfl
    · refine .inl ⟨rfl, future.listAt ?_⟩
      rw [List.getElem?_append_right (Nat.le_refl _), Nat.sub_self]
      rfl
    · exact .inr full
  others := h.undisturbed

namespace Actor

variable {κ : Type} [Kernel κ] {a b : Actor} {V : Sight} {deeds : List (Deed × Except Fault Unit)}

/-- In every life of a well-formed actor its arrays are growable lists. Whatever operations of the
library it calls, with whatever arguments, and whatever else is allocated, collected, delivered or
moved about meanwhile, and whether or not it succeeds: an array is empty when it is made, a push
appends and answers the new length, a get or a set within the list reads or replaces an element, one
outside is refused and changes nothing, and so does a push for which there is no memory. The length
is the number of pushes that have succeeded. A call changes only the array that it is made with; no
two arrays or tables ever have the same store, and no value that a program can get hold of refers to
one. -/
theorem Lives.arrays_are_lists (life : a.Lives κ deeds b) (shows : a.Shows V) :
    ∃ events V', V.Course deeds events V' ∧ b.Shows V' ∧ b.Hides ∧
      V.objects.Lists events V'.objects := by
  obtain ⟨events, V', course, after⟩ := life.course shows
  obtain ⟨sound', _, _, shown⟩ := id after
  exact ⟨events, V', course, after, shown.hides, (course.becomes shows.1).1.lists⟩

/-- An actor makes an array, appends a number and the array itself to it, and reads the second
element after a collection. -/
def hoarding : List Deed :=
  let shell := create {}
  [.call .arrayNew 0 0, .arrange shell [.integer 7, .stack 0] [], .call .arrayPush 2 2,
    .arrange shell [.stack 1, .stack 1] [], .call .arrayPush 2 2, .collect 0,
    .arrange shell [.stack 2, .integer 1, .stack 0] [], .call .arrayGet 3 2]

theorem Lives.arrays_are_lists_hoarding :
    ∃ b, (create {}).Lives Solitude (hoarding.map (·, .ok ())) b ∧
      b.stack[0]? = some (.integer 2) ∧ b.stack[3]? = b.stack[2]? ∧ b.Hides ∧
      ∃ events V', Sight.Course ⟨[], [], []⟩ (hoarding.map (·, .ok ())) events V' ∧ b.Shows V' ∧
        Contents.Lists [] events V'.objects := by
  have run : ((create {}).through? (⟨⟨0⟩⟩ : Solitude) hoarding).map
      (fun b => (b.stack[0]?, decide (b.stack[3]? = b.stack[2]?))) =
      some (some (.integer 2), true) := by
    decide +kernel
  obtain ⟨b, hb, hstack⟩ := Option.map_eq_some_iff.mp run
  obtain ⟨hlength, hitself⟩ := Prod.mk.inj hstack
  have sound : ∀ d ∈ hoarding, d.Sound := by simp [hoarding, Deed.Sound]
  have life := Lives.refl.through sound hb
  obtain ⟨events, V', course, shows, hides, lists⟩ := life.arrays_are_lists (shows_create {})
  exact ⟨b, life, hlength, of_decide_eq_true hitself, hides, events, V', course, shows, lists⟩

end Actor

end ActorMachine
