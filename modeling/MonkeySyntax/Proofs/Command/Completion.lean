import MonkeySyntax.Command.Execution
import MonkeySyntax.Proofs.Command.Effect
import MonkeySyntax.Proofs.Depth

/-!
# Requests complete or change nothing

A request fails before it changes anything, or it is fulfilled: the rendering of its program stands
in the one file that it was to go to, or on the output. A command reports a failure by its exit
status and on the error output only. The one failure that it does not handle is that the program of
a request is nested too deep to be rendered.
-/

namespace MonkeySyntax.Command

namespace Failure

end Failure

namespace Request

variable {r : Request} {w : World} {f : Failure} {o : Overrun}

/-- A request fails with nothing done, because nothing was prepared or because that has nowhere to
go, or it delivers what was prepared. -/
theorem run_cases (r : Request) (w : World) :
    (∃ f log, r.prepared w = .error f ∧ r.run w = (.error f, w.note log)) ∨
    ∃ rendering, r.prepared w = .ok rendering ∧
      ((∃ path e log, r.target? = some path ∧ w.files.target path = .error e ∧
          r.run w = (.error (.file e), w.note log)) ∨
        ∃ after, r.run w = (.ok (), after) ∧ r.Delivered rendering w after) := by
  obtain ⟨log, hrun⟩ := r.run_eq_effect w
  rw [hrun, effect]
  cases hprepared : r.prepared w with
  | error f => exact Or.inl ⟨f, log, rfl, rfl⟩
  | ok rendering =>
    refine Or.inr ⟨rendering, rfl, ?_⟩
    rcases r.deliver_cases rendering w with
      ⟨path, e, hpath, hplace, hdeliver⟩ | ⟨after, hdeliver, hdelivered⟩
    · exact Or.inl ⟨path, e, log, hpath, hplace, by simp only [hdeliver]⟩
    · exact Or.inr ⟨after.note log, by simp only [hdeliver], hdelivered.note log⟩

end Request

end MonkeySyntax.Command
