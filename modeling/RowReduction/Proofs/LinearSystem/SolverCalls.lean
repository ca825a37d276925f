import RowReduction.Proofs.LinearSystem.BackSubstitution

/-!
# Calls of a solver

A solver is called any number of times. A call fits if there is a constant for
each equation and a place for each variable. A call that does not fit is refused
and changes nothing; a call that fits is answered as if it were the first one.
-/

namespace RowReduction.Solver

open Matrix

/-- The coefficients, the constants and the place for the solution that a solver is called with. -/
structure Call (α : Type) where
  coefficients : Mat α
  constants : Vec α
  place : Vec α

section Calls

variable {α : Type} [Scalar α]

/-- There is a constant for each equation and a place for each variable. -/
def Call.Fits (c : Call α) : Prop :=
  c.constants.dim = c.coefficients.nrows ∧ c.place.dim = c.coefficients.ncols

instance (c : Call α) : Decidable c.Fits :=
  inferInstanceAs (Decidable (_ ∧ _))

/-- The solved system of a call, if it fits. -/
def Call.solved? (c : Call α) : Option (LinearSystem α) :=
  if c.Fits then
    (LinearSystem.make? c.coefficients c.constants).toOption.map LinearSystem.solve
  else none

/-- What a call leaves behind. -/
def reply (solver : Solver α) (c : Call α) : SolverReply α :=
  solver.solve c.coefficients c.constants c.place

/-- The solver after a list of calls. -/
def after (solver : Solver α) : List (Call α) → Solver α
  | [] => solver
  | c :: cs => (solver.reply c).solver.after cs

variable (solver : Solver α) {c : Call α}

/-- A call that fits solves its system, whatever the solver has kept. -/
theorem reply_of_fits (h : c.Fits) :
    ∃ s, LinearSystem.make? c.coefficients c.constants = .ok s ∧
      c.solved? = some s.solve ∧
      solver.reply c = ⟨⟨some s.solve⟩, s.solve.solution?.getD c.place, .ok s.computeStats⟩ := by
  have hmake := LinearSystem.make?_eq_ok c.coefficients c.constants h.1
  refine ⟨_, hmake, ?_, solver.solve_eq c.coefficients c.constants c.place h.1 h.2⟩
  rw [Call.solved?, if_pos h, hmake]
  rfl

/-- A call that does not fit is refused for its dimensions. -/
theorem exists_reply_of_not_fits (h : ¬ c.Fits) :
    ∃ e : Error, e.kind = .dimensionMismatch ∧ solver.reply c = ⟨solver, c.place, .error e⟩ := by
  by_cases hb : c.constants.dim = c.coefficients.nrows
  · have hplace : c.place.dim ≠ c.coefficients.ncols := fun hplace => h ⟨hb, hplace⟩
    refine ⟨.solutionVector c.place.dim c.coefficients.ncols, rfl, ?_⟩
    rw [reply, solve, dif_pos hb, if_neg hplace]
  · refine ⟨.rightHandSide c.constants.dim c.coefficients.nrows, rfl, ?_⟩
    rw [reply, solve, dif_neg hb]

/-- A call that fits puts its solved system in the place of what the solver has kept. -/
theorem system_reply (c : Call α) :
    (solver.reply c).solver.system = c.solved?.or solver.system := by
  by_cases h : c.Fits
  · obtain ⟨s, -, hsolved, hreply⟩ := solver.reply_of_fits h
    rw [hreply, hsolved, Option.some_or]
  · obtain ⟨e, -, hreply⟩ := solver.exists_reply_of_not_fits h
    rw [hreply, Call.solved?, if_neg h, Option.none_or]

/-- A solver keeps the solved system of its last call that fits. -/
theorem system_after (cs : List (Call α)) :
    (solver.after cs).system = (cs.filterMap Call.solved?).getLast?.or solver.system := by
  induction cs generalizing solver with
  | nil => rfl
  | cons c cs ih =>
      rw [after, ih, system_reply]
      cases h : c.solved? with
      | none => rw [List.filterMap_cons_none h, Option.none_or]
      | some s =>
          rw [List.filterMap_cons_some h, List.getLast?_cons, Option.some_or, Option.some_or]
          cases (cs.filterMap Call.solved?).getLast? <;> rfl

/-- A call fails exactly if it does not fit. -/
theorem exists_result_eq_error_iff :
    (∃ e, (solver.reply c).result = .error e) ↔ ¬ c.Fits := by
  by_cases h : c.Fits
  · obtain ⟨s, -, -, hreply⟩ := solver.reply_of_fits h
    simp [hreply, h]
  · obtain ⟨e, -, hreply⟩ := solver.exists_reply_of_not_fits h
    simp [hreply, h]

end Calls

/-- A call of a solver of fractions that reports a single solution leaves it in the place. -/
theorem place_of_unique {solver : Solver Fraction} {c : Call Fraction} {st : Stats}
    (hresult : (solver.reply c).result = .ok st) (htype : st.solutionType = .unique) :
    ∃ s, LinearSystem.make? c.coefficients c.constants = .ok s ∧
      (solver.reply c).place ∈ s.solutions := by
  have hfits : c.Fits := by
    by_contra h
    obtain ⟨e, -, hreply⟩ := solver.exists_reply_of_not_fits h
    rw [hreply] at hresult
    cases hresult
  obtain ⟨s, hmake, -, hreply⟩ := solver.reply_of_fits hfits
  rw [hreply] at hresult
  cases hresult
  obtain ⟨x, hsolutions, -, -, -, hcandidate⟩ := LinearSystem.candidate?_of_unique htype
  have hx : x ∈ s.solutions := (hsolutions x).mpr rfl
  refine ⟨s, hmake, ?_⟩
  rw [hreply, (LinearSystem.Reachable.make hmake).solution?_solve,
    LinearSystem.solution_resolve htype hcandidate hx]
  exact hx

/-- After any calls a solver has kept the solved system of the last one that fits. The next call
fails exactly if it does not fit, and then its cause is a mismatch of dimensions and nothing has
changed; otherwise it reports, keeps and puts into the place what solving its own system anew gives,
and leaves a place alone for which there is no solution. A single solution of fractions satisfies
the equations. -/
theorem reply_after_history :
    (∀ {α : Type} [Scalar α] (history : List (Call α)) (c : Call α),
      let solver := fresh.after history
      let reply := solver.reply c
      solver.system = (history.filterMap Call.solved?).getLast? ∧
      ((∃ e, reply.result = .error e) ↔
        c.constants.dim ≠ c.coefficients.nrows ∨ c.place.dim ≠ c.coefficients.ncols) ∧
      (∀ e, reply.result = .error e →
        e.kind = .dimensionMismatch ∧ reply.place = c.place ∧ reply.solver = solver) ∧
      (c.constants.dim = c.coefficients.nrows → c.place.dim = c.coefficients.ncols →
        ∃ s st, LinearSystem.make? c.coefficients c.constants = .ok s ∧
          s.solve.stats? = some st ∧ reply.result = .ok st ∧
          reply.solver.system = some s.solve ∧
          s.solve.coefficients = c.coefficients ∧ s.solve.constants = c.constants ∧
          (∀ x, s.solve.solution? = some x → reply.place = x) ∧
          (s.solve.solution? = none → reply.place = c.place))) ∧
    ∀ (history : List (Call Fraction)) (c : Call Fraction) (st : Stats),
      let reply := (fresh.after history).reply c
      reply.result = .ok st → st.solutionType = .unique →
        c.coefficients.mulVec? reply.place = .ok c.constants ∧
        c.coefficients.toMatrix *ᵥ reply.place.coords c.coefficients.ncols =
          c.constants.coords c.coefficients.nrows := by
  constructor
  · intro α _ history c solver reply
    refine ⟨?_, ?_, ?_, ?_⟩
    · rw [system_after, fresh, Option.or_none]
    · rw [exists_result_eq_error_iff, Call.Fits, not_and_or]
    · intro e he
      have hfits : ¬ c.Fits := (solver.exists_result_eq_error_iff).mp ⟨e, he⟩
      obtain ⟨e', hkind, hreply⟩ := solver.exists_reply_of_not_fits hfits
      simp only [reply, hreply, Except.error.injEq] at he ⊢
      exact ⟨he ▸ hkind, trivial, trivial⟩
    · intro hb hplace
      obtain ⟨s, hmake, -, hreply⟩ := solver.reply_of_fits ⟨hb, hplace⟩
      obtain ⟨ha, hb, -⟩ := LinearSystem.make?_eq_ok_iff.mp hmake
      refine ⟨s, s.computeStats, hmake, (LinearSystem.Reachable.make hmake).stats?_solve, ?_⟩
      simp only [reply, hreply]
      refine ⟨trivial, trivial, ha, hb, fun x hx => ?_, fun hnone => ?_⟩
      · rw [hx, Option.getD_some]
      · rw [hnone, Option.getD_none]
  · rintro history ⟨a, b, place⟩ st reply hresult htype
    obtain ⟨s, hmake, hplace⟩ := place_of_unique hresult htype
    obtain ⟨rfl, rfl, -⟩ := LinearSystem.make?_eq_ok_iff.mp hmake
    exact ⟨LinearSystem.mulVec?_of_mem_solutions hplace,
      (LinearSystem.mem_solutions_iff.mp hplace).2⟩

/-- The call for a system with a place of zeros, which is some components too long. -/
def zeroCall (s : LinearSystem Fraction) (excess : ℕ) : Call Fraction where
  coefficients := s.coefficients
  constants := s.constants
  place := Vec.ofFn (s.unknowns + excess) (Nat.add_pos_left s.coefficients.ncols_pos _) fun _ => 0

/-- After a call that has been answered, a call with a place too long is refused, a system with many
solutions leaves the place alone, and after these the one solution is found again. -/
theorem reply_after_history_linePoints :
    (∃ e, ((fresh.after [zeroCall .linePoints 0]).reply (zeroCall .linePoints 1)).result =
        .error e ∧ e.kind = .dimensionMismatch) ∧
    ((fresh.after [zeroCall .linePoints 0]).reply (zeroCall .repeatedEquation 0)).place =
      (zeroCall .repeatedEquation 0).place ∧
    ∃ st, ((fresh.after [zeroCall .linePoints 1, zeroCall .repeatedEquation 0]).reply
        (zeroCall .linePoints 0)).result = .ok st ∧ st.solutionType = .unique ∧
      (zeroCall .linePoints 0).coefficients.mulVec?
        ((fresh.after [zeroCall .linePoints 1, zeroCall .repeatedEquation 0]).reply
          (zeroCall .linePoints 0)).place = .ok (zeroCall .linePoints 0).constants := by
  obtain ⟨hcalls, hfractions⟩ := reply_after_history
  refine ⟨?_, ?_, ⟨2, 2, 2⟩, by decide, by decide, ?_⟩
  · obtain ⟨-, herror, hkind, -⟩ := hcalls [zeroCall .linePoints 0] (zeroCall .linePoints 1)
    obtain ⟨e, he⟩ := herror.mpr (Or.inr (by decide))
    exact ⟨e, he, (hkind e he).1⟩
  · obtain ⟨-, -, -, hfits⟩ := hcalls [zeroCall .linePoints 0] (zeroCall .repeatedEquation 0)
    obtain ⟨s, st, hmake, -, -, -, -, -, -, hnone⟩ := hfits (by decide) (by decide)
    apply hnone
    cases (LinearSystem.make?_eq_ok LinearSystem.repeatedEquation.coefficients _
      LinearSystem.repeatedEquation.dim_constants).symm.trans hmake
    decide
  · exact (hfractions _ (zeroCall .linePoints 0) ⟨2, 2, 2⟩ (by decide) (by decide)).1

end RowReduction.Solver
