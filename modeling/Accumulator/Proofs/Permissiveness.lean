/-
Assembling one program under two options.

Options are relaxed by turning strict mode off, or by allowing more names in strict mode.  The two
runs of the generator make the same checks in the same order, and as long as none of them fails
they have claimed the same labels.  So a label fails in both runs or in neither, and a name that
fails under the relaxed options fails under the others as well.  The runs can part only where a
name fails that the relaxed options admit: up to there nothing has failed in either run, and from
there on only one of them goes on.

* `Check.firstFailing?_of_relaxed` says this of the checks: the first failing check stays the same,
  unless it is a name that is now admitted;
* `Program.assemble_congr` and `Program.assemble_eq_undefinedVariable_iff` carry it over to the
  result of assembling.
-/
import Accumulator.Proofs.Assembling

namespace Accumulator

/-! ## Options -/

namespace Options

/-- The options let a name pass that is not a data word. -/
def Admits (options : Options) (name : String) : Prop :=
  options.strict = false ∨ name ∈ options.symbols

/-- The second options are not strict, or both are strict and the second allow every name that
the first allow. -/
def RelaxedBy (options relaxed : Options) : Prop :=
  relaxed.strict = false ∨
    options.strict = true ∧ relaxed.strict = true ∧
      ∀ name ∈ options.symbols, name ∈ relaxed.symbols

instance (options : Options) (name : String) : Decidable (options.Admits name) :=
  inferInstanceAs (Decidable (options.strict = false ∨ name ∈ options.symbols))

lemma RelaxedBy.admits {options relaxed : Options} (h : options.RelaxedBy relaxed) {name : String}
    (hname : options.Admits name) : relaxed.Admits name := by
  rcases h with hrelaxed | ⟨hstrict, -, hsymbols⟩
  · exact .inl hrelaxed
  · rcases hname with hfree | hname
    · rw [hstrict] at hfree
      exact absurd hfree (by decide)
    · exact .inr (hsymbols name hname)

end Options

/-! ## Checks -/

namespace Check

variable {g g' : Generator} {taken : List String} {checks : List Check}

/-- Let every name that fails in `g'` fail in `g`.  If the first failing check of `g` is not a name
that passes in `g'`, then it is the first failing check of `g'` as well. -/
lemma firstFailing?_of_relaxed (hnames : ∀ n, (name n).Fails g' [] → (name n).Fails g [])
    (hfirst : ∀ n, firstFailing? g taken checks = some (name n) → (name n).Fails g' []) :
    firstFailing? g' taken checks = firstFailing? g taken checks := by
  induction checks generalizing taken with
  | nil => rfl
  | cons c checks ih =>
    by_cases hc : c.Fails g taken
    · rw [firstFailing?_cons_of_fails hc] at hfirst ⊢
      have hc' : c.Fails g' taken := by
        cases c with
        | name n => exact hfirst n rfl
        | label l => exact hc
      exact firstFailing?_cons_of_fails hc'
    · rw [firstFailing?_cons_of_not_fails hc] at hfirst ⊢
      have hc' : ¬ c.Fails g' taken := by
        intro hfails
        cases c with
        | name n => exact hc (hnames n hfails)
        | label l => exact hc hfails
      rw [firstFailing?_cons_of_not_fails hc']
      -- the check has passed in both, so both have the same labels claimed
      exact ih hfirst

lemma fails_of_firstFailing? {n : String} (h : firstFailing? g taken checks = some (name n)) :
    (name n).Fails g [] := by
  obtain ⟨earlier, later, -, -, hfails⟩ := firstFailing?_eq_some_iff.mp h
  exact hfails

end Check

/-! ## Programs -/

namespace Program

open Check (firstFailing?)

variable {program : Program} {options relaxed : Options}

/-- A name fails if it is neither a data word nor admitted by the options. -/
lemma name_fails_iff {n : String} :
    (Check.name n).Fails (program.generator options) [] ↔
      n ∉ program.data ∧ ¬ options.Admits n := by
  show ((program.generator options).options.strict = true ∧ _) ↔ _
  rw [options_generator, mem_symbols_generator, Options.Admits, not_or, not_or,
    Bool.not_eq_false]
  exact and_left_comm

/-- The result of assembling depends on the options only through the first failing check. -/
lemma assemble_congr
    (h : firstFailing? (program.generator relaxed) [] (program.fragments.flatMap Node.checks)
      = firstFailing? (program.generator options) [] (program.fragments.flatMap Node.checks)) :
    program.assemble relaxed = program.assemble options := by
  rw [assemble_eq_map, assemble_eq_map, Generator.lowerAll_result, Generator.lowerAll_result, h]

/-- A name is reported if it is the first failing check. -/
lemma assemble_eq_undefinedVariable_iff {n : String} :
    program.assemble options = .error (.undefinedVariable n) ↔
      firstFailing? (program.generator options) [] (program.fragments.flatMap Node.checks)
        = some (.name n) := by
  rw [assemble_eq_error_iff, Generator.lowerAll_eq_error_iff]
  constructor
  · rintro ⟨c, hc, hfault⟩
    cases c with
    | name m =>
      obtain rfl : n = m := by simpa [Check.fault] using hfault
      exact hc
    | label l => exact absurd hfault (by simp [Check.fault])
  · intro h
    exact ⟨_, h, rfl⟩

/-- A name that is reported is not admitted. -/
lemma not_admits_of_undefinedVariable {n : String}
    (h : program.assemble options = .error (.undefinedVariable n)) : ¬ options.Admits n := by
  have hfails := Check.fails_of_firstFailing? (assemble_eq_undefinedVariable_iff.mp h)
  exact (name_fails_iff.mp hfails).2

/-- Relaxing the options changes nothing, unless a name was reported that is now admitted. -/
lemma assemble_of_relaxedBy (hrelaxed : options.RelaxedBy relaxed)
    (hreported : ∀ n, program.assemble options = .error (.undefinedVariable n) →
      ¬ relaxed.Admits n) :
    program.assemble relaxed = program.assemble options := by
  refine assemble_congr (Check.firstFailing?_of_relaxed (fun n hn => ?_) fun n hn => ?_)
  · obtain ⟨hdata, hnot⟩ := name_fails_iff.mp hn
    exact name_fails_iff.mpr ⟨hdata, fun h => hnot (hrelaxed.admits h)⟩
  · obtain ⟨hdata, -⟩ := name_fails_iff.mp (Check.fails_of_firstFailing? hn)
    have hnot := hreported n (assemble_eq_undefinedVariable_iff.mpr hn)
    exact name_fails_iff.mpr ⟨hdata, hnot⟩

/-- **Relaxing the options only admits names.**  Under relaxed options a program gives the same
listing or the same fault as before, except exactly where a name was reported as undefined that
the relaxed options admit.  So a listing is never changed, and a duplicate label that is reported
is neither changed nor hidden by strict mode. -/
theorem assemble_relaxed_eq_iff (program : Program) {options relaxed : Options}
    (hrelaxed : options.RelaxedBy relaxed) :
    (program.assemble relaxed = program.assemble options ↔
      ¬ ∃ n, program.assemble options = .error (.undefinedVariable n) ∧ relaxed.Admits n) ∧
    (∀ listing, program.assemble options = .ok listing →
      program.assemble relaxed = .ok listing) ∧
    ∀ label, program.assemble options = .error (.duplicateLabel label) →
      program.assemble relaxed = .error (.duplicateLabel label) := by
  refine ⟨⟨?_, fun hnone => ?_⟩, fun listing hok => ?_, fun label herror => ?_⟩
  · rintro heq ⟨n, hn, hadmits⟩
    exact not_admits_of_undefinedVariable (heq.trans hn) hadmits
  · exact assemble_of_relaxedBy hrelaxed fun n hn hadmits => hnone ⟨n, hn, hadmits⟩
  · rw [assemble_of_relaxedBy hrelaxed, hok]
    intro n hn
    simp [hok] at hn
  · rw [assemble_of_relaxedBy hrelaxed, herror]
    intro n hn
    simp [herror] at hn

/-- Two loops with the same index, which read two names. -/
def twinLoops : Program where
  fragments := [.loop 3 (.var "x") (.number 0), .loop 3 (.var "y") (.number 0)]

theorem assemble_twinLoops :
    twinLoops.assemble { strict := true } = .error (.undefinedVariable "x") ∧
      twinLoops.assemble { strict := true, symbols := .ofList ["x"] }
        ≠ twinLoops.assemble { strict := true } ∧
      twinLoops.assemble {} = twinLoops.assemble { strict := true, symbols := .ofList ["x"] } ∧
      twinLoops.assemble {} = .error (.duplicateLabel "while_start_3") := by
  have hundefined : twinLoops.assemble { strict := true }
      = .error (.undefinedVariable "x") := rfl
  have hduplicate : twinLoops.assemble { strict := true, symbols := .ofList ["x"] }
      = .error (.duplicateLabel "while_start_3") := rfl
  have hmore : Options.RelaxedBy { strict := true } { strict := true, symbols := .ofList ["x"] } :=
    .inr ⟨rfl, rfl, by decide⟩
  have hoff : Options.RelaxedBy { strict := true, symbols := .ofList ["x"] } {} := .inl rfl
  obtain ⟨heq_iff, -, -⟩ := assemble_relaxed_eq_iff twinLoops hmore
  obtain ⟨-, -, hsame⟩ := assemble_relaxed_eq_iff twinLoops hoff
  refine ⟨hundefined, fun heq => ?_, ?_, hsame _ hduplicate⟩
  · exact heq_iff.mp heq ⟨"x", hundefined, by decide⟩
  · exact (hsame _ hduplicate).trans hduplicate.symm

end Program

end Accumulator
