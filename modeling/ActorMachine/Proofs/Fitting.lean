import ActorMachine.Proofs.Isolation
import ActorMachine.Proofs.WellFormed

/-!
# Calls and stacks of all processes

At every moment the calls, the protected calls and the stack of every process fit together, whether
it is at home or has its turn, and though chunks may be loaded in the meantime
(`Moment.fits_of_reachable`).
-/

namespace ActorMachine

/-- What fits, fits with a loader that knows more. -/
theorem Outline.Fits.of_loader {l l' : Loader} {o : Outline} (h : o.Fits l)
    (more : ∀ {f p}, l.prototype f = .ok p → l'.prototype f = .ok p) : o.Fits l' :=
  { h with
    code := fun f hf => by
      obtain ⟨p, hp, hip⟩ := h.code f hf
      exact ⟨p, more hp, hip⟩ }

namespace Process

/-- A delivery does to the actor of a process what it does to the actor. -/
theorem actor_delivered (m : ActorM Unit) (p : Process) :
    (leaves (do onActor m; modify notify) p).actor = leaves m p.actor := by
  refine Ends.leaves (P := fun q : Process => q.actor = leaves m p.actor) <| .bind <|
    ends_onActor <| .intro (fun _ a run => .modify ?_) fun e a run => ?_
  · rw [notify_eq]
    unfold leaves
    rw [run]
  · unfold leaves
    rw [run]

/-- Nobody can take apart the calls of a process. -/
theorem lasting_fits (l : Loader) : Lasting fun p => p.actor.outline.Fits l where
  started _ prepared := (Session.fits_prepareEntry prepared).1
  deliver address source message hp := by
    cases source with
    | some source =>
      rw [deliver, actor_delivered]
      exact (Session.proceeds_leaves (.copy address source message) hp).1
    | none =>
      unfold deliver
      by_cases hinline : message.isCollectable
      · simp only [hinline, if_true]
        exact hp
      · simp only [hinline]
        exact (actor_delivered _ _).symm ▸ (Session.proceeds_leaves (.own address message) hp).1
  deliverBytes address bytes hp := by
    rw [deliverBytes, actor_delivered]
    exact (Session.proceeds_leaves (.bytes address bytes) hp).1
  requestExit hp := hp
  makeReady hp := hp

end Process

namespace Session

/-- What an actor does next leaves it with calls that fit together, even if it panics. -/
theorem fits_next {κ : Type} [Kernel κ] {l : Loader} {s : Session κ}
    (fits : s.actor.outline.Fits l) :
    Sum.elim (fun finished : Outcome × Session κ => finished.2.actor.outline.Fits l)
      (fun s' => s'.actor.outline.Fits l) (s.next l) := by
  have hrun := Exec.sound_advance s fits
  exact next_of_ends (P := fun t => t.actor.outline.Fits l) <|
    hrun.mono (fun _ _ h => h.1) fun _ _ h => (Actor.recover_spec h.1 rfl).1

end Session

namespace Moment

/-- Calls, protected calls and stack of every process fit together. -/
structure Fits (m : Moment) : Prop where
  table : m.table.Each fun p => p.actor.outline.Fits m.loader
  session : ∀ session, m.session? = some session → session.actor.outline.Fits m.loader

theorem Fits.ask {s : Scheduler} (h : (rest s).Fits) (r : Request) : (rest (s.ask r)).Fits := by
  have htable := Scheduler.each_ask (Process.lasting_fits s.loader) h.table r
  refine ⟨fun i slot p hi hp => ?_, nofun⟩
  have hfits : p.actor.outline.Fits s.loader := htable i slot p hi hp
  show p.actor.outline.Fits (s.ask r).loader
  rcases s.loader_ask r with heq | step
  · rw [heq]
    exact hfits
  · exact hfits.of_loader step.prototype

theorem Fits.go {m : Moment} (h : m.Fits) : m.go.Fits := by
  have everyone : m.go.Everyone fun a => a.outline.Fits m.loader := by
    refine .go ⟨h.table, h.session⟩ fun session _ running => ?_
    -- What the process that runs does to its own calls, and what to those of the others.
    have hown := Session.fits_next (l := m.loader) running.actor
    have hothers := Session.upholds_next (l := m.loader)
      (Dispatch.upholds_each (Process.lasting_fits m.loader)) running.table
    cases heq : session.next m.loader with
    | inl finished =>
      rw [heq] at hown hothers
      exact ⟨hown, hothers⟩
    | inr session' =>
      rw [heq] at hown hothers
      exact ⟨hown, hothers⟩
  rw [← loader_go] at everyone
  exact ⟨everyone.table, everyone.session⟩

theorem Fits.elapse {m : Moment} (h : m.Fits) (usecs : Nat) : (m.elapse usecs).Fits := by
  cases m <;> exact ⟨h.table, h.session⟩

theorem fits_of_reachable {m : Moment} (h : m.Reachable) : m.Fits :=
  h.induction (fun _ created => ⟨Scheduler.each_created created, nofun⟩) (fun _ r h => h.ask r)
    (fun _ h => h.go) fun _ usecs h => h.elapse usecs

end Moment

end ActorMachine
