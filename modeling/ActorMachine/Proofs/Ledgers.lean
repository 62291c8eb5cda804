import ActorMachine.Proofs.Letters
import ActorMachine.Proofs.Library

/-!
# Ledgers

A ledger is the account of a mailbox: what has been sent to a process, which of its receives,
removals and rewinds have succeeded, and which of the messages that it has received it has changed
itself, by writing to objects (`Ledger`, `Post`). The mailbox agrees with its ledger
(`Ledger.Records`): it holds a copy of each message of the ledger, in order, that is isomorphic to
the message (`Letter.CopiedTo`). A message that has been received belongs to the process; if the
process has changed it, it is still the copy (`Letter.Kin`).

What carries this is that nothing but a receive leads into the copies that have not been received:
they have no byte in common with what the process can reach (`Actor.Stows`). So natives cannot write
to them (`Stows.shared`), and collections and deliveries keep them apart (`Stows.receive`).
-/

namespace ActorMachine

open Memory

/-! ## Copies on their own -/

/-- No place at all. -/
def nowhere : Shape → Ref → Prop := fun _ _ => False

namespace Copies

variable {m m₁ : Memory} {P Q V V' : Shape → Ref → Prop} {letters letters' : List Letter}
  {values values' : Array Value}

theorem length_eq (h : Copies m P Q letters values) : letters.length = values.size := by
  induction h with
  | nil => rfl
  | snoc before iso copy apart ih =>
    rw [List.length_append, Array.size_push, ih]
    rfl

theorem isObject (h : Copies m nowhere V letters values) {s : Shape} {t : Ref} (hv : V s t) :
    m.IsObject s t := by
  induction h with
  | nil => exact hv.elim
  | snoc before iso copy apart ih =>
    rcases hv with hv | ⟨r, hr⟩
    · exact ih hv
    · exact iso.right.isObject ⟨r, hr⟩

theorem typed (h : Copies m nowhere V letters values) {s : Shape} {t : Ref} (hv : V s t) :
    m.WellTyped t s := by
  induction h with
  | nil => exact hv.elim
  | snoc before iso copy apart ih =>
    rcases hv with hv | ⟨r, hr⟩
    · exact ih hv
    · exact iso.right.typed ⟨r, hr⟩

/-- Each value is the copy of its letter. -/
theorem get (h : Copies m P Q letters values) {i : Nat} {x : Letter} {v : Value}
    (hx : letters[i]? = some x) (hv : values[i]? = some v) :
    ∃ σ, Iso σ x.source.memory m ∧ x.message.Match σ v := by
  induction h with
  | nil => cases hx
  | @snoc Q letters values σ x' v' before iso copy apart ih =>
    have hsize := before.length_eq
    by_cases hi : i < letters.length
    · rw [List.getElem?_append_left hi] at hx
      rw [Array.getElem?_push_lt (by omega), ← Array.getElem?_eq_getElem] at hv
      exact ih hx hv
    · have hlt := (Array.getElem?_eq_some_iff.mp hv).1
      rw [Array.size_push] at hlt
      obtain rfl : i = letters.length := by omega
      rw [List.getElem?_concat_length] at hx
      rw [hsize, Array.getElem?_push_size] at hv
      cases hx
      cases hv
      exact ⟨σ, iso, copy⟩

/-- Copies are what they have been as long as nothing writes to them. -/
theorem keep (h : Copies m nowhere V letters values)
    (same : ∀ {s t}, V s t → SameObject m m₁ t t) : Copies m₁ nowhere V letters values := by
  induction h with
  | nil => exact .nil
  | snoc before iso copy apart ih =>
    refine .snoc (ih fun hv => same (.inl hv)) (iso.of_same ?_ ?_) copy ?_
    · exact fun hrt => (Extends.refl _).sameObject (iso.left.isObject ⟨_, hrt⟩)
    · exact fun hrt => same (.inr ⟨_, hrt⟩)
    · intro s r s' t hq ht
      obtain ⟨hne, hapart⟩ := apart hq ht
      unfold Apart
      rw [(same (.inl hq)).endAt, (same (.inr ht)).endAt]
      exact ⟨hne, hapart⟩

/-- Copies may be told from what has been there before them. -/
theorem split (h : Copies m P Q letters values) :
    ∃ V, Copies m nowhere V letters values ∧ (∀ {s t}, V s t → Q s t) ∧
      (∀ {s t}, P s t → Q s t) ∧ ∀ {s r s' t}, P s r → V s' t → r ≠ t ∧ m.Apart r t := by
  induction h with
  | nil => exact ⟨nowhere, .nil, fun h => h.elim, id, fun _ h => h.elim⟩
  | snoc before iso copy apart ih =>
    obtain ⟨V, hcopies, hsub, hold, hapart⟩ := ih
    refine ⟨_, .snoc hcopies iso copy fun hv => apart (hsub hv), fun hv => hv.imp hsub id,
      fun hp => .inl (hold hp), fun hp hv => ?_⟩
    rcases hv with hv | hv
    · exact hapart hp hv
    · exact apart (hold hp) hv

/-- Copies that have no byte in common may be put one after the other. -/
theorem join (h : Copies m nowhere V letters values) (h' : Copies m nowhere V' letters' values')
    (hapart : ∀ {s r s' t}, V s r → V' s' t → r ≠ t ∧ m.Apart r t) :
    Copies m nowhere (fun s t => V s t ∨ V' s t) (letters ++ letters') (values ++ values') := by
  induction h' with
  | nil =>
    have hV : (fun s t => V s t ∨ nowhere s t) = V := by
      funext s t
      exact propext (or_iff_left id)
    rwa [hV, List.append_nil, Array.append_empty]
  | @snoc Q letters' values' σ x v before iso copy apart ih =>
    have hV : (fun s t => V s t ∨ (Q s t ∨ σ.range s t)) = fun s t => (V s t ∨ Q s t) ∨
        σ.range s t := by
      funext s t
      exact propext or_assoc.symm
    rw [hV, ← List.append_assoc, Array.append_push]
    refine .snoc (ih fun hv hq => hapart hv (.inl hq)) iso copy fun hq ht => ?_
    rcases hq with hv | hq
    · exact hapart hv (.inr ht)
    · exact apart hq ht

/-- The first of some copies, and the others. -/
theorem uncons {x : Letter} (h : Copies m nowhere V (x :: letters) values) :
    ∃ v rest σ V', values = #[v] ++ rest ∧ Iso σ x.source.memory m ∧ x.message.Match σ v ∧
      Copies m nowhere V' letters rest ∧ (∀ {s t}, σ.range s t → V s t) ∧
      (∀ {s t}, V' s t → V s t) ∧
      ∀ {s r s' t}, σ.range s r → V' s' t → r ≠ t ∧ m.Apart r t := by
  generalize hall : x :: letters = all at h
  induction h generalizing letters with
  | nil => cases hall
  | @snoc Q before values σ x' v' first iso copy apart ih =>
    cases before with
    | nil =>
      cases hall
      obtain rfl : values = #[] := Array.eq_empty_of_size_eq_zero first.length_eq.symm
      exact ⟨v', #[], σ, nowhere, rfl, iso, copy, .nil, .inr, fun h => h.elim, fun _ h => h.elim⟩
    | cons y ys =>
      cases hall
      obtain ⟨v, rest, σ', V', rfl, iso', copy', hcopies, hrange, hsub, hapart⟩ := ih rfl
      refine ⟨v, rest.push v', σ', _, by rw [Array.append_push], iso', copy',
        .snoc hcopies iso copy fun hv => apart (hsub hv), fun h => .inl (hrange h),
        fun h => h.imp hsub id, fun hr hv => ?_⟩
      rcases hv with hv | hv
      · exact hapart hr hv
      · exact apart (hrange hr) hv

/-- Copies of what is vouched for are vouched for; places that they do not lead to may be left
out. -/
theorem exists_vouched {F : Value → Prop} (h : Copies m nowhere V letters values)
    (vouched : ∀ x ∈ letters, x.Vouched F) :
    ∃ V' : Shape → Ref → Prop, (∀ {s t}, V' s t → V s t) ∧ Copies m nowhere V' letters values ∧
      m.Vouched F V' ∧ ∀ v ∈ values, v.Vouched F := by
  induction h with
  | nil => exact ⟨nowhere, id, .nil, fun _ _ hv => hv.elim, nofun⟩
  | @snoc Q letters values σ x v before iso copy apart ih =>
    obtain ⟨V', hsub, hcopies, hplaces, hvalues⟩ :=
      ih fun y hy => vouched y (List.mem_append_left _ hy)
    obtain ⟨τ, own, message, source⟩ :=
      vouched x (List.mem_append_right _ (List.mem_singleton_self x))
    have hrange : ∀ {s t}, (τ.comp σ).range s t → σ.range s t := by
      intro s t ⟨r, u, hru, hut⟩
      exact ⟨u, hut⟩
    refine ⟨_, fun h => h.imp hsub hrange,
      hcopies.snoc (own.trans iso) (message.alike.trans copy) ?_, ?_, ?_⟩
    · exact fun hq ht => apart (hsub hq) (hrange ht)
    · refine hplaces.or ((source.move (own.trans iso)).subset ?_)
      intro s t ⟨r, u, hru, hut⟩
      exact ⟨r, ⟨u, hru⟩, u, hru, hut⟩
    · intro w hw
      cases Array.mem_push.mp hw with
      | inl hold => exact hvalues w hold
      | inr heq => exact heq ▸ copy.vouched message.vouched

/-- What copies hold is sound. -/
theorem exists_iso (h : Copies m nowhere V letters values) :
    ∃ ν, Iso ν m m ∧ (∀ {s r t}, ν s r t → V s r ∧ V s t) ∧ Value.MatchAll ν values values := by
  induction h with
  | nil => exact ⟨.empty, .empty _ _, fun h => h.elim, .empty _⟩
  | @snoc Q letters values σ x v before iso copy apart ih =>
    obtain ⟨ν, hiso, hsub, hvalues⟩ := ih
    refine ⟨ν.union (σ.inverse.comp σ), hiso.union (iso.symm.trans iso) ?_ ?_, ?_, ?_⟩
    · rintro s r t s' r' t' hν ⟨u, hur, -⟩
      exact apart (hsub hν).1 ⟨u, hur⟩
    · rintro s r t s' r' t' hν ⟨u, -, hut⟩
      exact apart (hsub hν).2 ⟨u, hut⟩
    · rintro s r t (hν | ⟨u, hur, hut⟩)
      · exact ⟨.inl (hsub hν).1, .inl (hsub hν).2⟩
      · exact ⟨.inr ⟨u, hur⟩, .inr ⟨u, hut⟩⟩
    · exact (hvalues.mono .inl).push ((copy.symm.trans copy).mono .inr)

end Copies

/-! ## Ledgers -/

/-- A value is what has become of the copy of a letter, whoever has written to it since: the same
inline value, or an object of the same shape and size; a string with the same bytes. -/
inductive Letter.Kin (x : Letter) (m : Memory) : Value → Prop
  | inline (h : x.message.ref? = none) : Kin x m x.message
  | object {s : Shape} {r t : Ref} (message : x.message = .object s r)
    (size : m.sizeAt t = x.source.memory.sizeAt r)
    (string : s = .string → m.stringAt t = x.source.memory.stringAt r) : Kin x m (.object s t)

namespace Letter.Kin

variable {x : Letter} {m m₁ : Memory} {v w : Value} {γ : Matching}

theorem of_copy (iso : Iso γ x.source.memory m) (copy : x.message.Match γ v) : x.Kin m v := by
  generalize hmessage : x.message = message at copy
  cases copy with
  | inline h => exact hmessage ▸ .inline (hmessage ▸ h)
  | object hrt =>
    exact .object hmessage (iso.alike hrt).size.symm fun hs => ((iso.alike hrt).string hs).symm

/-- Sizes and strings are all that matters of an object. -/
theorem keep (h : x.Kin m v) (same : ∀ {s t}, v = .object s t →
    m₁.sizeAt t = m.sizeAt t ∧ (s = .string → m₁.stringAt t = m.stringAt t)) : x.Kin m₁ v := by
  cases h with
  | inline h => exact .inline h
  | object message size string =>
    exact .object message ((same rfl).1.trans size) fun hs => ((same rfl).2 hs).trans (string hs)

theorem move (h : x.Kin m v) (iso : Iso γ m m₁) (hvw : v.Match γ w) : x.Kin m₁ w := by
  cases h with
  | inline h =>
    rw [hvw.eq_of_inline h]
    exact .inline h
  | object message size string =>
    cases hvw with
    | inline h => cases h
    | object hrt =>
      exact .object message ((iso.alike hrt).size.symm.trans size) fun hs =>
        ((iso.alike hrt).string hs).symm.trans (string hs)

end Letter.Kin

/-- A value is a copy of a letter. -/
def Letter.CopiedTo (x : Letter) (m : Memory) (v : Value) : Prop :=
  ∃ σ : Matching, Iso σ x.source.memory m ∧ x.message.Match σ v

namespace Letter.CopiedTo

variable {x : Letter} {m m₁ : Memory} {v w : Value} {γ ρ : Matching}

theorem kin (h : x.CopiedTo m v) : x.Kin m v := by
  obtain ⟨σ, iso, copy⟩ := h
  exact .of_copy iso copy

theorem move (h : x.CopiedTo m v) (iso : Iso γ m m₁) (hvw : v.Match γ w) : x.CopiedTo m₁ w := by
  obtain ⟨σ, hiso, copy⟩ := h
  exact ⟨σ.comp γ, hiso.trans iso, copy.trans hvw⟩

/-- A copy stays one as long as nothing that it reaches is written to. -/
theorem keep (h : x.CopiedTo m v) (own : Iso ρ m m) (hv : v.Match ρ v)
    (same : ∀ {s r t}, ρ s r t → SameObject m m₁ t t) : x.CopiedTo m₁ v := by
  obtain ⟨σ, iso, copy⟩ := h
  -- What the copy reaches is what `ρ` matches, so no more of `σ` is needed than that.
  refine ⟨σ.comp ρ, (iso.trans own).of_same (fun hrt => ?_) ?_, copy.trans hv⟩
  · exact (Extends.refl _).sameObject ((iso.trans own).left.isObject ⟨_, hrt⟩)
  · rintro s r t ⟨u, -, hut⟩
    exact same hut

end Letter.CopiedTo

/-- What an account says of a mailbox and its process. -/
inductive Post where
  | sent (x : Letter)
  | received
  | removed
  | rewound
  /-- The process has written to objects, and those of its messages are not what they have been. -/
  | wrote (changed : Nat → Prop)

/-- An account of a mailbox. -/
structure Ledger where
  /-- The messages that have been sent and not been removed, in the order of the sends. -/
  letters : List Letter
  /-- The number of messages received since the last rewind or removal. -/
  peeked : Nat
  /-- The number of messages, from the first one on, that have ever been received. -/
  handed : Nat
  /-- The messages that the process has changed itself since it has received them. -/
  altered : Nat → Prop

namespace Ledger

/-- The account of a new mailbox. -/
def empty : Ledger := ⟨[], 0, 0, fun _ => False⟩

/-- The account after one thing more. A receive gives the first message that has not been given
since the last rewind or removal, and a removal takes away the one that the last receive has
given. -/
def post (L : Ledger) : Post → Ledger
  | .sent x => { L with letters := L.letters ++ [x] }
  | .received => { L with peeked := L.peeked + 1, handed := max L.handed (L.peeked + 1) }
  | .removed =>
    ⟨L.letters.eraseIdx (L.peeked - 1), 0, L.handed - 1,
      fun i => L.altered (if i < L.peeked - 1 then i else i + 1)⟩
  | .rewound => { L with peeked := 0 }
  | .wrote changed => { L with altered := fun i => L.altered i ∨ i < L.handed ∧ changed i }

/-- The account after some things, one after the other. -/
def posts (L : Ledger) (posts : List Post) : Ledger :=
  posts.foldl post L

theorem posts_append (L : Ledger) (first rest : List Post) :
    L.posts (first ++ rest) = (L.posts first).posts rest :=
  List.foldl_append

theorem posts_sent (L : Ledger) (letters : List Letter) :
    L.posts (letters.map .sent) = { L with letters := L.letters ++ letters } := by
  induction letters generalizing L with
  | nil =>
    rw [List.append_nil]
    rfl
  | cons x letters ih =>
    show (L.post (.sent x)).posts (letters.map .sent) = _
    rw [ih, List.append_cons]
    rfl

/-- A mailbox agrees with its account. -/
structure Records (L : Ledger) (a : Actor) : Prop where
  size : a.mailbox.size = L.letters.length
  cursor : a.mailbox.cursor = L.peeked
  peeked_le : L.peeked ≤ L.handed
  handed_le : L.handed ≤ L.letters.length
  /-- Only what has been received can have been changed. -/
  altered_lt : ∀ i, L.altered i → i < L.handed
  /-- A message that the process has not changed is isomorphic to what has been sent. -/
  whole : ∀ (i : Nat) (x : Letter) (v : Value), ¬L.altered i → L.letters[i]? = some x →
    a.mailbox.messages[i]? = some v → x.CopiedTo a.heap.memory v
  /-- A message that it has changed is still the copy of what has been sent. -/
  kin : ∀ (i : Nat) (x : Letter) (v : Value), L.letters[i]? = some x →
    a.mailbox.messages[i]? = some v → x.Kin a.heap.memory v

/-- The messages of an account: those that have been received lie where the process can reach them,
as `ρ` says, and the others lie apart from that, at the places of `V`. -/
structure Stock (F : Value → Prop) (L : Ledger) (m : Memory) (ρ : Matching)
    (handed fresh : Array Value)
    (V : Shape → Ref → Prop) : Prop where
  size : handed.size = L.handed
  handed_le : L.handed ≤ L.letters.length
  sound : Value.MatchAll ρ handed handed
  whole : ∀ (i : Nat) (x : Letter) (v : Value), ¬L.altered i → L.letters[i]? = some x →
    handed[i]? = some v → x.CopiedTo m v
  kin : ∀ (i : Nat) (x : Letter) (v : Value), L.letters[i]? = some x →
    handed[i]? = some v → x.Kin m v
  copies : Copies m nowhere V (L.letters.drop L.handed) fresh
  vouched : m.Vouched F V
  apart : ∀ {s r t s' r'}, ρ s r t → V s' r' → r ≠ r' ∧ m.Apart r r'

/-- The process may have changed all that it has received. -/
def Spent (L : Ledger) : Prop :=
  ∀ i, i < L.handed → L.altered i

end Ledger

theorem Ledger.Stock.mono {F G : Value → Prop} {L : Ledger} {m : Memory} {ρ : Matching}
    {handed fresh : Array Value} {V : Shape → Ref → Prop} (h : L.Stock F m ρ handed fresh V)
    (himp : ∀ v, F v → G v) : L.Stock G m ρ handed fresh V :=
  { h with vouched := h.vouched.mono himp }

/-- What is received goes to the end of the account, wherever everything is moved. What has been
received before is matched with what it was, and what has not been received stays apart from it. -/
theorem Ledger.Stock.receive {F : Value → Prop} {L : Ledger} {m m₁ : Memory} {ρ γ : Matching}
    {handed fresh handed' fresh' copies : Array Value} {V V' : Shape → Ref → Prop}
    {letters : List Letter} (stock : L.Stock F m ρ handed fresh V) (iso : Iso γ m m₁)
    (hhanded : Value.MatchAll γ handed handed') (hfresh : Value.MatchAll γ fresh fresh')
    (new : Copies m₁ nowhere V' letters copies) (vouched : m₁.Vouched F V')
    (behind : ∀ {s r s' t}, γ.range s r → V' s' t → r ≠ t ∧ m₁.Apart r t) :
    Stock F { L with letters := L.letters ++ letters } m₁ (γ.inverse.comp (ρ.comp γ)) handed'
      (fresh' ++ copies) fun s t => γ.image V s t ∨ V' s t := by
  have hmoved := stock.copies.move iso hfresh
  have hnowhere : γ.image nowhere = nowhere := by
    funext s t
    exact propext ⟨fun ⟨_, h, _⟩ => h, fun h => h.elim⟩
  rw [hnowhere] at hmoved
  have hsize := hhanded.size.symm.trans stock.size
  have hle := stock.handed_le
  -- Each message that has been received before was one then.
  have before : ∀ {i : Nat} {x : Letter} {v : Value}, (L.letters ++ letters)[i]? = some x →
      handed'[i]? = some v → ∃ w, L.letters[i]? = some x ∧ handed[i]? = some w ∧ w.Match γ v := by
    intro i x v hx hv
    have hlt := (Array.getElem?_eq_some_iff.mp hv).1
    rw [List.getElem?_append_left (by omega)] at hx
    have hrel := hhanded.rel i
    rw [hv] at hrel
    generalize hw : handed[i]? = w at hrel
    cases hrel with
    | some hwv => exact ⟨_, hx, rfl, hwv⟩
  exact {
    size := hsize
    handed_le := by
      rw [List.length_append]
      exact Nat.le_add_right_of_le hle
    sound := hhanded.symm.trans (stock.sound.trans hhanded)
    whole := fun i x v hi hx hv => by
      obtain ⟨w, hx, hw, hwv⟩ := before hx hv
      exact (stock.whole i x w hi hx hw).move iso hwv
    kin := fun i x v hx hv => by
      obtain ⟨w, hx, hw, hwv⟩ := before hx hv
      exact (stock.kin i x w hx hw).move iso hwv
    copies := by
      rw [List.drop_append_of_le_length hle]
      exact hmoved.join new fun ⟨u, _, hut⟩ hv => behind ⟨u, hut⟩ hv
    vouched := (stock.vouched.move iso).or vouched
    apart := by
      rintro s t t' s' r' ⟨u, hut, _, hρ, _⟩ (⟨u', hv, hur⟩ | hv)
      · have hne : t ≠ r' := fun heq => (stock.apart hρ hv).1 ((iso.unique hut hur).mpr heq)
        exact ⟨hne, iso.right.apart ⟨u, hut⟩ ⟨u', hur⟩ hne⟩
      · exact behind ⟨u, hut⟩ hv }

/-- An actor whose mailbox agrees with its account, while it runs. All that it can reach is what `ρ`
matches with itself; the messages that it has not received are elsewhere. All functions and natives
that it holds, or that are in its mailbox, are vouched for by `F`. -/
structure Actor.Stows (F : Value → Prop) (L : Ledger) (ρ : Matching) (a : Actor) : Prop where
  bounded : a.heap.Bounded
  still : ρ.Still
  iso : Iso ρ a.heap.memory a.heap.memory
  stack : Value.MatchAll ρ a.stack a.stack
  held : ∀ v ∈ a.stack, v.Vouched F
  objects : a.heap.memory.Vouched F fun s r => ∃ t, ρ s r t
  idle : a.pendingReceive = none
  cursor : a.mailbox.cursor = L.peeked
  peeked_le : L.peeked ≤ L.handed
  altered_lt : ∀ i, L.altered i → i < L.handed
  messages : ∀ v ∈ a.mailbox.messages, v.Vouched F
  mailbox : ∃ handed fresh V, a.mailbox.messages = handed ++ fresh ∧
    L.Stock F a.heap.memory ρ handed fresh V

/-- All that the messages that have been received reach lies at places of `P`. -/
def Actor.ReceivedWithin (L : Ledger) (P : Ref → Prop) (a : Actor) : Prop :=
  ∃ κ : Matching, κ.Still ∧ Iso κ a.heap.memory a.heap.memory ∧
    (∀ (i : Nat) (v : Value), i < L.handed → a.mailbox.messages[i]? = some v → v.Match κ v) ∧
    ∀ {s r t}, κ s r t → P t

namespace Actor.Stows

variable {F G : Value → Prop} {L : Ledger} {ρ γ : Matching} {a b : Actor}

/-- What has been received reaches nothing but what the process can reach. -/
theorem receivedWithin {P : Ref → Prop} (h : a.Stows F L ρ) (places : ∀ {s r t}, ρ s r t → P t) :
    a.ReceivedWithin L P := by
  refine ⟨ρ, h.still, h.iso, fun i v hi hv => ?_, places⟩
  obtain ⟨handed, fresh, V, hmessages, stock⟩ := h.mailbox
  have hsize := stock.size
  rw [hmessages, Array.getElem?_append_left (by omega)] at hv
  exact stock.sound.get i v v hv hv

/-- What vouches for less does so all the more. -/
theorem mono (h : a.Stows F L ρ) (himp : ∀ v, F v → G v) : a.Stows G L ρ :=
  { h with
    held := fun v hv => (h.held v hv).mono himp
    objects := h.objects.mono himp
    messages := fun v hv => (h.messages v hv).mono himp
    mailbox := by
      obtain ⟨handed, fresh, V, hmessages, stock⟩ := h.mailbox
      exact ⟨handed, fresh, V, hmessages, stock.mono himp⟩ }

theorem records (h : a.Stows F L ρ) : L.Records a := by
  obtain ⟨handed, fresh, V, hmessages, stock⟩ := h.mailbox
  have hlength := stock.copies.length_eq
  have hsize := stock.size
  have hle := stock.handed_le
  rw [List.length_drop] at hlength
  have hfresh : ∀ (i : Nat) (x : Letter) (v : Value), L.handed ≤ i → L.letters[i]? = some x →
      a.mailbox.messages[i]? = some v → x.CopiedTo a.heap.memory v := by
    intro i x v hi hx hv
    rw [hmessages, Array.getElem?_append_right (by omega), hsize] at hv
    refine stock.copies.get (i := i - L.handed) ?_ hv
    rw [List.getElem?_drop, Nat.add_sub_cancel' hi, hx]
  refine ⟨?_, h.cursor, h.peeked_le, hle, h.altered_lt, fun i x v hi hx hv => ?_,
    fun i x v hx hv => ?_⟩
  · rw [Mailbox.size, hmessages, Array.size_append]
    omega
  · by_cases hlt : i < L.handed
    · rw [hmessages, Array.getElem?_append_left (by omega)] at hv
      exact stock.whole i x v hi hx hv
    · exact hfresh i x v (by omega) hx hv
  · by_cases hlt : i < L.handed
    · rw [hmessages, Array.getElem?_append_left (by omega)] at hv
      exact stock.kin i x v hx hv
    · exact (hfresh i x v (by omega) hx hv).kin

/-- Calls, limits and the rest do not matter. -/
theorem of_eq (h : a.Stows F L ρ) (heap : b.heap = a.heap) (mailbox : b.mailbox = a.mailbox)
    (idle : b.pendingReceive = none) (stack : Value.MatchAll ρ b.stack b.stack)
    (held : ∀ v ∈ b.stack, v.Vouched F) : b.Stows F L ρ where
  bounded := heap ▸ h.bounded
  still := h.still
  iso := heap ▸ h.iso
  stack := stack
  held := held
  objects := heap ▸ h.objects
  idle := idle
  cursor := mailbox ▸ h.cursor
  peeked_le := h.peeked_le
  altered_lt := h.altered_lt
  messages := mailbox ▸ h.messages
  mailbox := by
    rw [heap, mailbox]
    exact h.mailbox

/-- Which messages the process has changed may be told otherwise, as long as those that it has not
are copies of what has been sent. -/
theorem setAltered {altered : Nat → Prop} (h : a.Stows F L ρ) (lt : ∀ i, altered i → i < L.handed)
    (whole : ∀ (i : Nat) (x : Letter) (v : Value), i < L.handed → ¬altered i →
      L.letters[i]? = some x →
      a.mailbox.messages[i]? = some v → x.CopiedTo a.heap.memory v) :
    a.Stows F { L with altered } ρ :=
  { h with
    altered_lt := lt
    mailbox := by
      obtain ⟨handed, fresh, V, hmessages, stock⟩ := h.mailbox
      refine ⟨handed, fresh, V, hmessages, { stock with whole := fun i x v hi hx hv => ?_ }⟩
      have hlt := (Array.getElem?_eq_some_iff.mp hv).1
      have hsize := stock.size
      refine whole i x v (by omega) hi hx ?_
      rw [hmessages, Array.getElem?_append_left hlt, hv] }

/-- Nothing is written to but what the process can reach, and nothing that a message reaches that
has been received and is not to be changed. What the process can reach now besides lies behind all
that has been there. -/
theorem setMemory {ρ₁ : Matching} {m₁ : Memory} (h : a.Stows F L ρ) (iso : Iso ρ₁ m₁ m₁)
    (still : ρ₁.Still) (himp : ∀ {s r t}, ρ s r t → ρ₁ s r t)
    (new : ∀ {s r t}, ρ₁ s r t → ρ s r t ∨ a.heap.memory.size ≤ r.start)
    (hsize : ∀ {s r t}, ρ s r t → m₁.sizeAt r = a.heap.memory.sizeAt r)
    (hstring : ∀ {r t}, ρ .string r t → m₁.stringAt r = a.heap.memory.stringAt r)
    (others : ∀ {s r}, a.heap.memory.IsObject s r →
      (∀ {s' r' t'}, ρ s' r' t' → a.heap.memory.Apart r' r) → SameObject a.heap.memory m₁ r r)
    (whole : L.Spent ∨ a.ReceivedWithin L fun t => SameObject a.heap.memory m₁ t t)
    (objects : m₁.Vouched F fun s r => ∃ t, ρ₁ s r t) (room : m₁.size ≤ a.heap.capacity) :
    Stows F L ρ₁ { a with heap := { a.heap with memory := m₁ } } where
  bounded := ⟨room, h.bounded.capacity_le, h.bounded.max_le⟩
  still := still
  iso := iso
  stack := h.stack.mono himp
  held := h.held
  objects := objects
  idle := h.idle
  cursor := h.cursor
  peeked_le := h.peeked_le
  altered_lt := h.altered_lt
  messages := h.messages
  mailbox := by
    obtain ⟨handed, fresh, V, hmessages, stock⟩ := h.mailbox
    -- What has not been received is apart from all that the process can reach.
    have same : ∀ {s r}, V s r → SameObject a.heap.memory m₁ r r := fun hv =>
      others (stock.copies.isObject hv) fun hρ => (stock.apart hρ hv).2
    refine ⟨handed, fresh, V, hmessages, stock.size, stock.handed_le, stock.sound.mono himp, ?_, ?_,
      stock.copies.keep same, stock.vouched.of_same stock.copies.typed same, ?_⟩
    · intro i x v hi hx hv
      have hlt := (Array.getElem?_eq_some_iff.mp hv).1
      have hlt : i < L.handed := Nat.lt_of_lt_of_eq hlt stock.size
      rcases whole with spent | ⟨κ, -, own, received, kept⟩
      · exact absurd (spent i hlt) hi
      · refine (stock.whole i x v hi hx hv).keep own (received i v hlt ?_) kept
        rw [hmessages, Array.getElem?_append_left (by omega), hv]
    · intro i x v hx hv
      refine (stock.kin i x v hx hv).keep fun heq => ?_
      obtain ⟨t, hρ⟩ := (stock.sound.get i v v hv hv).exists_of_object heq
      refine ⟨hsize hρ, ?_⟩
      rintro rfl
      exact hstring hρ
    · intro s r t s' r' hρ hv
      have hend := (same hv).endAt
      rcases new hρ with hold | hbehind
      · obtain ⟨hne, hapart⟩ := stock.apart hold hv
        unfold Apart at hapart ⊢
        rw [hend, endAt, hsize hold]
        exact ⟨hne, hapart⟩
      · have hinside := (stock.copies.isObject hv).inside
        have hlt := start_lt_endAt a.heap.memory r'
        refine ⟨?_, .inr ?_⟩
        · rintro rfl
          omega
        · rw [hend]
          omega

/-- All that the actor holds are objects of its heap, and so is what it has not received; what they
hold is vouched for. -/
theorem equivalent (h : a.Stows F L ρ) :
    ∃ σ : Matching, (∀ {s r t}, ρ s r t → σ s r t) ∧ a.Equivalent σ a ∧
      a.heap.memory.Vouched F fun s r => ∃ t, σ s r t := by
  obtain ⟨handed, fresh, V, hmessages, stock⟩ := h.mailbox
  obtain ⟨ν, iso, hsub, hfresh⟩ := stock.copies.exists_iso
  have objects : a.heap.memory.Vouched F fun s r => ∃ t, (ρ.union ν) s r t := by
    refine (h.objects.or stock.vouched).subset ?_
    rintro s r ⟨t, hρ | hν⟩
    · exact .inl ⟨t, hρ⟩
    · exact .inr (hsub hν).1
  refine ⟨ρ.union ν, .inl, ?_, objects⟩
  exact {
    frames := rfl
    catches := rfl
    entry := rfl
    pendingReceive := rfl
    cursor := rfl
    limits := rfl
    maxCapacity := rfl
    left := h.bounded
    right := h.bounded
    iso := h.iso.union iso (fun hρ hν => stock.apart hρ (hsub hν).1) fun hρ hν =>
      stock.apart (h.still hρ ▸ hρ) (hsub hν).2
    stack := h.stack.mono .inl
    messages := by
      rw [hmessages]
      exact (stock.sound.mono .inl).append (hfresh.mono .inr) }

/-- What an actor receives goes to the end of its account. Though everything may have been moved,
what has not been received stays apart from the rest. -/
theorem receive {letters : List Letter} (h : a.Stows F L ρ) (received : a.Receives γ letters b)
    (vouched : ∀ x ∈ letters, x.Vouched F) (bounded : b.heap.Bounded) :
    ∃ ρ', b.Stows F { L with letters := L.letters ++ letters } ρ' := by
  obtain ⟨handed, fresh, V, hmessages, stock⟩ := h.mailbox
  obtain ⟨old, copies, taken, hmessages', hold, hcopies⟩ := received.mailbox
  have hmessages₁ := hold.vouched h.messages
  rw [hmessages] at hold
  obtain ⟨handed', fresh', rfl, hhanded, hfresh⟩ := hold.of_append
  obtain ⟨V₁, hcopies, -, -, hbehind⟩ := hcopies.split
  obtain ⟨V', hsub, hcopies, hplaces, hvalues⟩ := hcopies.exists_vouched vouched
  refine ⟨γ.inverse.comp (ρ.comp γ), {
    bounded := bounded
    still := ?_
    iso := received.iso.symm.trans (h.iso.trans received.iso)
    stack := received.stack.symm.trans (h.stack.trans received.stack)
    held := received.stack.vouched h.held
    objects := (h.objects.move received.iso).subset ?_
    idle := received.pendingReceive.trans h.idle
    cursor := received.cursor.trans h.cursor
    peeked_le := h.peeked_le
    altered_lt := h.altered_lt
    messages := ?_
    mailbox := ⟨handed', fresh' ++ copies, _, ?_,
      stock.receive received.iso hhanded hfresh hcopies hplaces fun hr hv =>
        hbehind hr (hsub hv)⟩ }⟩
  · rintro s t t' ⟨u, hut, u', hρ, hut'⟩
    exact (received.iso.unique hut hut').mp (h.still hρ)
  · rintro s t ⟨t', u, hut, u', hρ, -⟩
    exact ⟨u, ⟨u', hρ⟩, hut⟩
  · intro v hv
    rw [hmessages'] at hv
    exact (Array.mem_append.mp hv).elim (hmessages₁ v) (hvalues v)
  · rw [hmessages', Array.append_assoc]

end Actor.Stows

end ActorMachine
