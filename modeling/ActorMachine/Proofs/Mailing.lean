import ActorMachine.Proofs.Stowing

/-!
# Receives, removals and messages to oneself

What the operations on its own mailbox make of an actor that agrees with its account: it goes on
agreeing with the account, in which what has happened is posted.
-/

namespace ActorMachine

open Memory

/-- What has been sent may be told from a letter that it is a copy of. -/
theorem Actor.Receives.of_copied {γ τ : Matching} {x y : Letter} {a b : Actor}
    (h : a.Receives γ [y] b) (iso : Iso τ x.source.memory y.source.memory)
    (copy : x.message.Match τ y.message) :
    a.Receives γ [x] b := by
  obtain ⟨old, copies, taken, hmessages, hold, hcopies⟩ := h.mailbox
  suffices hx : ∃ taken, Copies b.heap.memory γ.range taken [x] copies by
    obtain ⟨taken', hx⟩ := hx
    exact { h with mailbox := ⟨old, copies, taken', hmessages, hold, hx⟩ }
  generalize hys : [y] = ys at hcopies
  cases hcopies with
  | nil => cases hys
  | @snoc Q before values σ z v first iso' copy' apart =>
    cases before with
    | cons w ws => simp at hys
    | nil =>
      cases hys
      obtain rfl : values = #[] := Array.eq_empty_of_size_eq_zero first.length_eq.symm
      obtain ⟨-, -, -, hold, -⟩ := first.split
      refine ⟨_, Copies.nil.snoc (iso.trans iso') (copy.trans copy') ?_⟩
      rintro s r s' t hr ⟨u, w, huw, hwt⟩
      exact apart (hold hr) ⟨w, hwt⟩

/-- The first message that has not been received is handed over: it and what it leads to, where `τ`
matches everything with itself, are told from the messages that come after it. -/
theorem Ledger.Stock.hand {F : Value → Prop} {L : Ledger} {m : Memory} {ρ : Matching}
    {handed fresh : Array Value} {V : Shape → Ref → Prop} (stock : L.Stock F m ρ handed fresh V)
    (next : L.peeked = L.handed) {v : Value} (hv : fresh[0]? = some v) :
    ∃ (τ : Matching) (rest : Array Value) (V' : Shape → Ref → Prop), fresh = #[v] ++ rest ∧
      Iso τ m m ∧ τ.Still ∧
      v.Match τ v ∧ (∀ {s r t}, τ s r t → V s r) ∧
      (L.post .received).Stock F m (ρ.union τ) (handed.push v) rest V' := by
  have hsize := stock.size
  have hlength := stock.copies.length_eq
  have hpos := (Array.getElem?_eq_some_iff.mp hv).1
  rw [List.length_drop] at hlength
  have hin : L.handed < L.letters.length := by omega
  have hcopies := stock.copies
  rw [List.drop_eq_getElem_cons hin] at hcopies
  obtain ⟨w, rest, σ, V', rfl, iso, copy, hrest, hrange, hsub, hapart⟩ := hcopies.uncons
  obtain rfl : w = v := by
    rw [Array.getElem?_append_left (by simp)] at hv
    exact Option.some.inj hv
  have hmatch : w.Match (σ.inverse.comp σ) w := copy.symm.trans copy
  have hlast : ∀ {i : Nat} {x : Letter} {v : Value}, L.letters[i]? = some x →
      (handed.push w)[i]? = some v → handed[i]? = some v ∨ x.CopiedTo m v := by
    intro i x v hx hv
    by_cases hi : i < handed.size
    · rw [Array.getElem?_push_lt hi, ← Array.getElem?_eq_getElem] at hv
      exact .inl hv
    · have hlt := (Array.getElem?_eq_some_iff.mp hv).1
      rw [Array.size_push] at hlt
      obtain rfl : i = handed.size := by omega
      rw [Array.getElem?_push_size] at hv
      rw [hsize, List.getElem?_eq_getElem hin] at hx
      cases hv
      cases hx
      exact .inr ⟨σ, iso, copy⟩
  refine ⟨σ.inverse.comp σ, rest, V', rfl, iso.symm.trans iso, ?_, hmatch, ?_, ?_⟩
  · rintro s r t ⟨u, hur, hut⟩
    exact (iso.unique hur hut).mp rfl
  · rintro s r t ⟨u, hur, -⟩
    exact hrange ⟨u, hur⟩
  · have hhanded : max L.handed (L.peeked + 1) = L.handed + 1 := by omega
    unfold Ledger.post
    rw [hhanded]
    refine ⟨by rw [Array.size_push, hsize], hin, ?_, ?_, ?_, hrest, stock.vouched.subset hsub, ?_⟩
    · exact (stock.sound.mono .inl).push (hmatch.mono .inr)
    · exact fun i x v hi hx hv => (hlast hx hv).elim (stock.whole i x v hi hx) id
    · exact fun i x v hx hv => (hlast hx hv).elim (stock.kin i x v hx) fun hcopied => hcopied.kin
    · rintro s r t s' r' (hρ | ⟨u, hur, -⟩) hv
      · exact stock.apart hρ (hsub hv)
      · exact hapart ⟨u, hur⟩ hv

namespace Actor.Stows

variable {F : Value → Prop} {L : Ledger} {ρ γ : Matching} {a b : Actor}

theorem size_eq (h : a.Stows F L ρ) : a.mailbox.messages.size = L.letters.length :=
  h.records.size

/-- The message under the cursor is received: from now on the process can reach it. -/
theorem received {v : Value} (h : a.Stows F L ρ) (hv : a.mailbox.messages[L.peeked]? = some v) :
    ∃ ρ' : Matching, (∀ {s r t}, ρ s r t → ρ' s r t) ∧ v.Held F ρ' v ∧
      Stows F (L.post .received) ρ'
        { a with mailbox := { a.mailbox with cursor := L.peeked + 1 } } := by
  have hvouched := h.messages v (Array.mem_of_getElem? hv)
  obtain ⟨handed, fresh, V, hmessages, stock⟩ := h.mailbox
  have hsize := stock.size
  have hle := h.peeked_le
  by_cases hlt : L.peeked < L.handed
  · -- A message that has been received before.
    rw [hmessages, Array.getElem?_append_left (by omega)] at hv
    have hhanded : max L.handed (L.peeked + 1) = L.handed := by omega
    refine ⟨ρ, id, ⟨stock.sound.get _ v v hv hv, hvouched⟩, { h with
      cursor := rfl
      peeked_le := Nat.le_max_right _ _
      altered_lt := fun i hi => Nat.lt_of_lt_of_le (h.altered_lt i hi) (Nat.le_max_left _ _)
      mailbox := ⟨handed, fresh, V, hmessages, ?_⟩ }⟩
    unfold Ledger.post
    rw [hhanded]
    exact ⟨hsize, stock.handed_le, stock.sound, stock.whole, stock.kin, stock.copies, stock.vouched,
      stock.apart⟩
  · -- The first one that has not been received.
    obtain hpeeked : L.peeked = L.handed := by omega
    rw [hmessages, Array.getElem?_append_right (by omega), hpeeked, hsize, Nat.sub_self] at hv
    obtain ⟨τ, rest, V', rfl, iso, still, hmatch, hplaces, hstock⟩ := stock.hand hpeeked hv
    refine ⟨ρ.union τ, .inl, ⟨hmatch.mono .inr, hvouched⟩, {
      bounded := h.bounded
      still := ?_
      iso := h.iso.union iso (fun hρ hτ => stock.apart hρ (hplaces hτ)) ?_
      stack := h.stack.mono .inl
      held := h.held
      objects := (h.objects.or stock.vouched).subset ?_
      idle := h.idle
      cursor := rfl
      peeked_le := Nat.le_max_right _ _
      altered_lt := fun i hi => Nat.lt_of_lt_of_le (h.altered_lt i hi) (Nat.le_max_left _ _)
      messages := h.messages
      mailbox := ⟨handed.push v, rest, V', ?_, hstock⟩ }⟩
    · rintro s r t (hρ | hτ)
      · exact h.still hρ
      · exact still hτ
    · intro s r t s' r' t' hρ hτ
      obtain rfl := h.still hρ
      obtain rfl := still hτ
      exact stock.apart hρ (hplaces hτ)
    · rintro s r ⟨t, hρ | hτ⟩
      · exact .inl ⟨t, hρ⟩
      · exact .inr (hplaces hτ)
    · rw [hmessages, Array.push_eq_append, Array.append_assoc]

/-- The message that has been received last is removed. -/
theorem removed (h : a.Stows F L ρ) (peeked : 0 < L.peeked) :
    Stows F (L.post .removed) ρ { a with
      mailbox := ⟨a.mailbox.messages.eraseIdxIfInBounds (L.peeked - 1), 0⟩ } := by
  obtain ⟨handed, fresh, V, hmessages, stock⟩ := h.mailbox
  have hsize := stock.size
  have hle := h.peeked_le
  have hbound := stock.handed_le
  have hin : L.peeked - 1 < handed.size := by omega
  have hbefore : ∀ {i : Nat} {x : Letter} {v : Value},
    (L.letters.eraseIdx (L.peeked - 1))[i]? = some x →
      (handed.eraseIdxIfInBounds (L.peeked - 1))[i]? = some v →
      L.letters[if i < L.peeked - 1 then i else i + 1]? = some x ∧
        handed[if i < L.peeked - 1 then i else i + 1]? = some v := by
    intro i x v hx hv
    rw [← Array.getElem?_toList, Array.toList_eraseIdxIfInBounds, List.getElem?_eraseIdx,
      Array.getElem?_toList, Array.getElem?_toList] at hv
    rw [List.getElem?_eraseIdx] at hx
    split at hx
    · rw [if_pos ‹_›] at hv ⊢
      exact ⟨hx, hv⟩
    · rw [if_neg ‹_›] at hv ⊢
      exact ⟨hx, hv⟩
  refine { h with
    cursor := rfl
    peeked_le := Nat.zero_le _
    altered_lt := fun i hi => ?_
    messages := fun v hv => h.messages v (mem_of_mem_eraseIdxIfInBounds hv)
    mailbox := ⟨handed.eraseIdxIfInBounds (L.peeked - 1), fresh, V, ?_, ?_,
      ?_, stock.sound.eraseIdxIfInBounds _, ?_, ?_, ?_, stock.vouched, stock.apart⟩ }
  · have hlt := h.altered_lt _ hi
    show i < L.handed - 1
    split at hlt <;> omega
  · show a.mailbox.messages.eraseIdxIfInBounds _ = _
    apply Array.ext'
    rw [hmessages, Array.toList_eraseIdxIfInBounds, Array.toList_append, Array.toList_append,
      Array.toList_eraseIdxIfInBounds, List.eraseIdx_append_of_lt_length (by simpa using hin)]
  · show _ = L.handed - 1
    rw [← Array.length_toList, Array.toList_eraseIdxIfInBounds,
      List.length_eraseIdx_of_lt (by simpa), Array.length_toList, hsize]
  · show L.handed - 1 ≤ (L.letters.eraseIdx (L.peeked - 1)).length
    rw [List.length_eraseIdx_of_lt (by omega)]
    omega
  · intro i x v hi hx hv
    obtain ⟨hx, hv⟩ := hbefore hx hv
    exact stock.whole _ x v hi hx hv
  · intro i x v hx hv
    obtain ⟨hx, hv⟩ := hbefore hx hv
    exact stock.kin _ x v hx hv
  · -- What has not been received stays, though it has moved up by one place.
    have hdrop : (L.post .removed).letters.drop (L.post .removed).handed =
        L.letters.drop L.handed := by
      show (L.letters.eraseIdx (L.peeked - 1)).drop (L.handed - 1) = _
      apply List.ext_getElem?
      intro i
      rw [List.getElem?_drop, List.getElem?_drop, List.getElem?_eraseIdx, if_neg (by omega)]
      congr 1
      omega
    rw [hdrop]
    exact stock.copies

theorem rewound (h : a.Stows F L ρ) :
    Stows F (L.post .rewound) ρ { a with mailbox := a.mailbox.rewind } :=
  { h with
    cursor := rfl
    peeked_le := Nat.zero_le _
    mailbox := by
      obtain ⟨handed, fresh, V, hmessages, stock⟩ := h.mailbox
      exact ⟨handed, fresh, V, hmessages, { stock with }⟩ }

end Actor.Stows

/-- A receive gives the message that is next by the account `L`: it lies on the stack, above so many
values, and is still in the mailbox. -/
structure Actor.Given (L : Ledger) (height : Nat) (a b : Actor) : Prop where
  message : ∃ v, a.mailbox.messages[L.peeked]? = some v ∧ b.stack.back? = some v
  size : b.stack.size = height + 1
  heap : b.heap = a.heap
  messages : b.mailbox.messages = a.mailbox.messages

/-- A receive has nothing to give by the account `L`: it has left so many values, so that there is
room for one more, and maybe it is blocked. -/
structure Actor.Ungiven (F : Value → Prop) (L : Ledger) (height : Nat) (a b : Actor) : Prop where
  nothing : a.mailbox.messages[L.peeked]? = none
  size : b.stack.size = height
  room : height < b.limits.maxStack
  entry : b.entry = a.entry
  stows : ∃ ρ, Actor.Stows F L ρ { b with pendingReceive := none }

namespace ActorM

variable {F : Value → Prop} {L : Ledger} {ρ : Matching} {a : Actor}

/-- Peeking gives the message that is next by the account, if there is one. -/
theorem ends_peekMessage (h : a.Stows F L ρ) :
    Ends peekMessage a
      (fun found b => (∃ v ρ', found = some v ∧ a.mailbox.messages[L.peeked]? = some v ∧
        v.Held F ρ' v ∧
          b = { a with mailbox := { a.mailbox with cursor := L.peeked + 1 } } ∧
          b.Stows F (L.post .received) ρ') ∨
        found = none ∧ a.mailbox.messages[L.peeked]? = none ∧ b = a)
      fun _ _ => False := by
  refine .bind <| .get ?_
  unfold Mailbox.peek?
  rw [h.cursor]
  cases hv : a.mailbox.messages[L.peeked]? with
  | none => exact .pure (.inr ⟨rfl, rfl, rfl⟩)
  | some v =>
    obtain ⟨ρ', -, hmatch, h'⟩ := h.received hv
    exact .bind <| .modify <| .pure (.inl ⟨v, ρ', rfl, rfl, hmatch, rfl, h'⟩)

/-- A message that is given needs a place on the stack. -/
theorem ends_pushGiven {v : Value} {b : Actor} (hv : a.mailbox.messages[L.peeked]? = some v)
    (held : v.Held F ρ v) (hb : b = { a with mailbox := { a.mailbox with cursor := L.peeked + 1 } })
    (h : b.Stows F (L.post .received) ρ) (room : a.stack.size < a.limits.maxStack) :
    Ends (push v) b (fun _ c => a.Given L a.stack.size c ∧ c.Stows F (L.post .received) ρ)
      fun _ _ => False := by
  subst hb
  refine .bind <| .get <| .ite (fun full => absurd room (Nat.not_lt.mpr full)) fun _ =>
    .modify ⟨?_, ?_⟩
  · exact ⟨⟨v, hv, Array.back?_push⟩, Array.size_push _, rfl, rfl⟩
  · exact h.push held

/-- A jump does nothing but go on elsewhere, or fails. -/
theorem ends_jump (codeLength : Nat) (displacement : Int) (a : Actor) :
    Ends (jump codeLength displacement) a (fun _ b => ∃ frames, b = { a with frames })
      fun e b => ¬e.Dangling ∧ b = a := by
  refine .bind <| .get ?_
  cases a.frames.back? with
  | none => exact .throw ⟨nofun, rfl⟩
  | some frame => exact .ite (fun _ => .throw ⟨nofun, rfl⟩) fun _ => .modify ⟨_, rfl⟩

theorem ends_receive (h : a.Stows F L ρ) (room : a.stack.size ≤ a.limits.maxStack)
    (codeLength : Nat) (displacement : Int) :
    Ends (receive codeLength displacement) a
      (fun _ b => (a.Given L (a.stack.size - 1) b ∧ ∃ ρ', b.Stows F (L.post .received) ρ') ∨
        a.Ungiven F L (a.stack.size - 1) b)
      fun e b => ¬e.Dangling ∧ ∃ ρ', b.Stows F L ρ' := by
  refine .bind <| (ends_pop a).mono ?_ ?_
  · rintro timeout a₁ ⟨hlow, -, ha₁⟩
    have hsize : a₁.stack.size = a.stack.size - 1 := by
      rw [ha₁, Array.size_pop]
    have h₁ : a₁.Stows F L ρ := by
      rw [ha₁]
      exact h.pop
    have hmailbox : a₁.mailbox = a.mailbox := by rw [ha₁]
    have hlimits : a₁.limits = a.limits := by rw [ha₁]
    refine .bind <| (ends_peekMessage h₁).mono ?_ fun _ _ h => h.elim
    rintro _ b (⟨v, ρ', rfl, hv, held, hb, h'⟩ | ⟨rfl, hv, rfl⟩)
    · -- The message takes the place of the timeout.
      refine .bind <| (ends_pushGiven hv held hb h' ?_).mono ?_ fun _ _ h => h.elim
      · rw [hsize, hlimits]
        omega
      · rintro _ c ⟨⟨hmessage, hsize', hheap, hmessages⟩, hc⟩
        refine .pure (.inl ⟨⟨?_, ?_, ?_, ?_⟩, ρ', hc⟩)
        · rwa [hmailbox] at hmessage
        · rw [hsize', hsize]
        · rw [hheap, ha₁]
        · rw [hmessages, hmailbox]
    · -- Whether it jumps or blocks, it changes only the frames and what is pending.
      have hempty : ∀ c : Actor, c.stack = b.stack → c.entry = b.entry → c.heap = b.heap →
          c.mailbox = b.mailbox → c.limits = b.limits → a.Ungiven F L (a.stack.size - 1) c := by
        intro c hstack hentry hheap hbox hlim
        refine ⟨?_, ?_, ?_, ?_, ρ, ?_⟩
        · rwa [hmailbox] at hv
        · rw [hstack, hsize]
        · rw [hlim, hlimits]
          omega
        · rw [hentry, ha₁]
        · refine h₁.of_eq hheap hbox rfl ?_ ?_
          · show Value.MatchAll ρ c.stack c.stack
            rw [hstack]
            exact h₁.stack
          · show ∀ v ∈ c.stack, v.Vouched F
            rw [hstack]
            exact h₁.held
      refine .bind <| (show Ends (timeoutOf timeout) b (fun _ c => c = b)
        fun e c => ¬e.Dangling ∧ c = b from ?_).mono ?_ ?_
      · cases timeout with
        | integer n => exact .pure rfl
        | nil => exact .pure rfl
        | _ => exact .throw ⟨nofun, rfl⟩
      · rintro n _ rfl
        refine .ite (fun _ => ?_) fun _ => .bind <| .modify <| .pure (.inr ?_)
        · refine .bind <| (ends_jump codeLength displacement _).mono ?_ ?_
          · rintro _ _ ⟨frames, rfl⟩
            exact .pure (.inr (hempty _ rfl rfl rfl rfl rfl))
          · rintro _ _ ⟨he, rfl⟩
            exact ⟨he, ρ, h₁⟩
        · exact hempty _ rfl rfl rfl rfl rfl
      · rintro _ _ ⟨he, rfl⟩
        exact ⟨he, ρ, h₁⟩
  · rintro _ _ ⟨rfl, rfl⟩
    exact ⟨nofun, ρ, h⟩

/-- What has been received last can be removed, and only that. -/
theorem ends_removeMessage (h : a.Stows F L ρ) :
    Ends removeMessage a
      (fun _ b => 0 < L.peeked ∧
        b = { a with mailbox := ⟨a.mailbox.messages.eraseIdxIfInBounds (L.peeked - 1), 0⟩ })
      fun e b => L.peeked = 0 ∧ e = .nothingPeeked ∧ b = a := by
  have hsize := h.size_eq
  have hle := h.peeked_le
  have hbound := h.records.handed_le
  refine .bind <| .get ?_
  unfold Mailbox.removePeeked?
  rw [h.cursor]
  cases hpeeked : L.peeked with
  | zero => exact .throw ⟨rfl, rfl, rfl⟩
  | succ last =>
    have hin : last < a.mailbox.messages.size := by omega
    dsimp only
    rw [Array.getElem?_eq_getElem hin]
    exact .modify ⟨Nat.succ_pos _, rfl⟩

/-- What a sound actor comes to is bounded, as it comes to something sound. -/
theorem ends_bounded {B : Fault → Prop} {m : ActorM α} {Q : Matching → α → α → Prop}
    (sound : a.Equivalent ρ a) (same : ∀ g, Same g B ρ m m Q) :
    Ends m a (fun _ b => b.heap.Bounded) fun _ b => b.heap.Bounded := by
  refine (same _ a a (.of_equivalent sound a.heap.memory)).ends.mono ?_ ?_
  · rintro _ b ⟨ρ', hb, -⟩
    exact hb.left
  · rintro _ b ⟨ρ', -, hb⟩
    exact hb.left

/-- A message to oneself goes to the end of the account as it is when it is sent. -/
theorem ends_deliverLocal (h : a.Stows F L ρ) {v : Value} (hv : v.Held F ρ v) (self : Pid) :
    Ends (deliverLocal self v) a (fun _ b => ∃ ρ', b.Stows F (L.post (.sent ⟨v, a.heap⟩)) ρ')
      fun e b => ¬e.Dangling ∧ ∃ ρ', b.Stows F L ρ' := by
  obtain ⟨σ, hsub, sound, -⟩ := h.equivalent
  have hvσ : v.Match σ v := hv.alike.mono hsub
  have letter : Letter.Vouched F ⟨v, a.heap⟩ := ⟨ρ, h.iso, hv, h.objects⟩
  have bounded := ends_bounded sound fun _ => same_deliverLocal (B := fun _ => True) self hvσ
  suffices received : Ends (deliverLocal self v) a (fun _ b => ∃ γ, a.Receives γ [⟨v, a.heap⟩] b)
      fun e b => ¬e.Dangling ∧ ∃ γ, a.Receives γ [] b by
    refine (received.and bounded).mono ?_ ?_
    · rintro _ b ⟨⟨γ, hγ⟩, hb⟩
      exact h.receive hγ (List.forall_mem_singleton.mpr letter) hb
    · rintro _ b ⟨⟨he, γ, hγ⟩, hb⟩
      obtain ⟨ρ', h'⟩ := h.receive hγ nofun hb
      rw [List.append_nil] at h'
      exact ⟨he, ρ', h'⟩
  refine .ite (fun _ => .bind <| .get ?_) fun hinline => ?_
  · obtain ⟨refs, -, hmeasure, -, -, enumerates, -⟩ := Heap.measure_eq sound.iso hvσ
    have hle : a.heap.memory.total refs ≤ a.heap.used := sound.iso.left.total_le enumerates.nodup
      fun r hr => by
        obtain ⟨s, hreach⟩ := (enumerates.mem_iff r).mp hr
        exact ⟨s, hreach.subset sound.iso.closedLeft fun s r heq => hvσ.exists_of_object heq.symm⟩
    obtain ⟨τ, x, staging, run, iso, copy⟩ := exists_staging sound.iso hvσ hmeasure
      (Nat.le_trans hle h.bounded.used_le_limit)
    show Ends (ofHeap (a.heap.measure v) >>= _) _ _ _
    rw [hmeasure]
    refine .bind <| .pure ?_
    rw [run]
    refine (ends_deliver sound self (x := ⟨x, staging⟩)
      ⟨_, iso.symm.trans iso, copy.symm.trans copy⟩).mono
      ?_ fun _ _ h => h
    rintro _ b ⟨γ, hγ⟩
    exact ⟨γ, hγ.of_copied iso copy⟩
  · refine .bind <| (ends_checkMailbox self a).mono ?_ ?_
    · rintro _ _ ⟨-, rfl⟩
      exact .modify ⟨σ, .of_inline (x := ⟨v, _⟩) sound hinline⟩
    · rintro _ _ ⟨rfl, rfl⟩
      exact ⟨nofun, σ, .of_equivalent sound⟩

end ActorM

namespace Exec

variable {κ : Type} {F : Value → Prop} {L : Ledger} {ρ : Matching} {s : Session κ}

/-- A receive that was blocked has its timeout behind it. The world is not asked for anything. -/
theorem ends_resumeReceive (h : s.actor.Stows F L ρ)
    (room : s.actor.stack.size < s.actor.limits.maxStack) (l : Loader)
    (code : ∀ frame, s.actor.frames.back? = some frame → ∃ p, l.prototype frame.func = .ok p)
    (displacement : Int) :
    Ends (resumeReceive l displacement) s
      (fun _ s' => s'.kernel = s.kernel ∧
        ((s.actor.Given L s.actor.stack.size s'.actor ∧
          ∃ ρ', s'.actor.Stows F (L.post .received) ρ') ∨
          s.actor.Ungiven F L s.actor.stack.size s'.actor))
      fun e s' => ¬e.Dangling ∧ s'.kernel = s.kernel ∧ ∃ ρ', s'.actor.Stows F L ρ' := by
  refine .bind <| ends_onActor <| (ActorM.ends_peekMessage h).mono ?_ fun _ _ h => h.elim
  rintro _ b (⟨v, ρ', rfl, hv, held, hb, h'⟩ | ⟨rfl, hv, rfl⟩)
  · exact ends_onActor <| (ActorM.ends_pushGiven hv held hb h' room).mono
      (fun _ _ ⟨given, h⟩ => ⟨rfl, .inl ⟨given, ρ', h⟩⟩) fun _ _ h => h.elim
  · have hempty : ∀ frames, s.actor.Ungiven F L s.actor.stack.size { s.actor with frames } :=
      fun frames => ⟨hv, rfl, room, rfl, ρ, h.of_eq rfl rfl rfl h.stack h.held⟩
    refine .bind <| .bind <| .get <| .pure ?_
    dsimp only
    cases hframe : s.actor.frames.back? with
    | none => exact .throw ⟨nofun, rfl, ρ, h⟩
    | some frame =>
      obtain ⟨p, hp⟩ := code frame hframe
      dsimp only
      rw [hp]
      refine .bind <| .pure <| ends_onActor <|
        (ActorM.ends_jump p.code.size displacement _).mono ?_ ?_
      · rintro _ _ ⟨frames, rfl⟩
        exact ⟨rfl, .inr (hempty frames)⟩
      · rintro _ _ ⟨he, rfl⟩
        exact ⟨he, rfl, ρ, h⟩

end Exec

/-- The letter that a send is, if it is one to the sender itself. -/
def Session.letterToSelf? {κ : Type} [Kernel κ] (s : Session κ) : Option Letter :=
  match s.actor.stack.back?, s.actor.stack.pop.back? with
  | some message, some (.pid target) =>
    if target = Kernel.self s.kernel then some ⟨message, s.actor.heap⟩ else none
  | _, _ => none

/-- A send to oneself goes to the end of the account, and one to somebody else does not concern
it. -/
theorem Exec.ends_send {κ : Type} [Kernel κ] {F : Value → Prop} {lax : Prop} {W : κ → Prop}
    {L : Ledger} {ρ : Matching} {s : Session κ} (trusts : Kernel.Trusts F lax W)
    (h : s.Stows F W L ρ) :
    Ends send s (fun _ s' => ∃ ρ', s'.Stows F W (L.posts (s.letterToSelf?.toList.map .sent)) ρ')
      fun e s' => (e.Dangling → lax) ∧ ∃ ρ', s'.Stows F W L ρ' := by
  have ha := h.actor
  refine .bind <| ends_onActor <| (ActorM.ends_pop s.actor).mono ?_ ?_
  · rintro message a ⟨-, hmessage, rfl⟩
    refine .bind <| ends_onActor <| (ActorM.ends_pop _).mono ?_ ?_
    · rintro target b ⟨-, htarget, rfl⟩
      have held : message.Held F ρ message := by
        rw [Array.back?_eq_getElem?] at hmessage
        exact ha.get hmessage
      have h₂ := ha.pop.pop
      cases target with
      | pid target =>
        have hletter : s.letterToSelf? =
            if target = Kernel.self s.kernel then some ⟨message, s.actor.heap⟩ else none := by
          unfold Session.letterToSelf?
          rw [hmessage, htarget]
        rw [hletter]
        refine .bind <| .bind <| .get <| .pure <| .ite (fun own => ?_) fun other => ?_
        · rw [if_pos own]
          refine ends_onActor ((ActorM.ends_deliverLocal h₂ held target).mono ?_ ?_)
          · rintro _ b ⟨ρ', hb⟩
            exact ⟨ρ', hb, h.kernel⟩
          · rintro e b ⟨he, ρ', hb⟩
            exact ⟨fun hd => absurd hd he, ρ', hb, h.kernel⟩
        · rw [if_neg other]
          have hsend := trusts.send (x := ⟨message, s.actor.heap⟩) h.kernel ha.bounded
            ⟨ρ, ha.iso, held, ha.objects⟩ target
          refine ends_onKernel (hsend.mono ?_ ?_)
          · exact fun _ _ hk => ⟨ρ, h₂, hk⟩
          · exact fun _ _ hk => ⟨hk.1, ρ, h₂, hk.2⟩
      | _ => exact .throw ⟨nofun, ρ, h₂, h.kernel⟩
    · rintro _ _ ⟨rfl, rfl⟩
      exact ⟨nofun, ρ, ha.pop, h.kernel⟩
  · rintro _ _ ⟨rfl, rfl⟩
    exact ⟨nofun, ρ, h⟩

end ActorMachine
