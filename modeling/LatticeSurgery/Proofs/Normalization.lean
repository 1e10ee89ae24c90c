import LatticeSurgery.Proofs.Circuit.Turning
import LatticeSurgery.Proofs.Compilation

namespace LatticeSurgery

open Result

/-! # Normalization in front of the Litinski transform

The transform of a measured circuit does not depend on whether the circuit was brought to the
form without Y before. So the first of the two passes that do so could be left out of a
compilation with the transform. -/

namespace Pass

variable {width : Nat} {circuit : Circuit} {approximator : Approximator}

theorem runAll_cons {pass : Pass} {work next : Workpiece}
    (ran : pass.runIfNeeded work = .ok next) (rest : List Pass) :
    runAll (pass :: rest) work = runAll rest next := by
  rw [runAll, ran]

theorem runAll_litinski (fits : ∀ block ∈ circuit.blocks, block.Fits width)
    {transformed : Circuit} (computed : circuit.litinski = .ok transformed) (rest : List Pass) :
    runAll (litinski :: rest) (.start circuit approximator) =
      runAll rest (.start transformed approximator) := by
  have tested : ∀ block ∈ circuit.blocks, ∃ isQuarter, block.isQuarterRotation = .ok isQuarter :=
    fun block member => (fits block member).exists_isQuarterRotation
  apply runAll_cons
  rw [runIfNeeded_litinski tested, computed]
  rfl

/-- Normalization in front of the transform can be left out. -/
theorem runAll_yFree_litinski (fits : ∀ block ∈ circuit.blocks, block.Fits width)
    (measured : circuit.hasMeasurement = true) (rest : List Pass) :
    runAll (yFree :: litinski :: rest) (.start circuit approximator) =
      runAll (litinski :: rest) (.start circuit approximator) := by
  rcases Circuit.exists_litinski_of_measured fits measured with ⟨transformed, computed⟩
  have normalized : circuit.yFree.litinski = .ok transformed :=
    (Circuit.litinski_yFree fits measured).trans computed
  rw [runAll_cons runIfNeeded_yFree, runAll_litinski (Circuit.fits_yFree fits) normalized,
    runAll_litinski fits computed]

end Pass

namespace Circuit

/-- A measured circuit has a Litinski transform, and it is the transform of its form without Y.
In a compilation with the transform, the passes leave the same behind when the first
normalization is left out. -/
theorem normalization_absorbed {width : Nat} {circuit : Circuit}
    (fits : ∀ block ∈ circuit.blocks, block.Fits width)
    (measured : circuit.hasMeasurement = true) :
    (∃ normalized transformed, circuit.checkedYFree = .ok normalized ∧
      normalized.litinski = .ok transformed ∧ circuit.litinski = .ok transformed) ∧
    ∀ (options : Options) (approximator : Approximator), options.litinski = true →
      Pass.runAll options.passes (.start circuit approximator) =
        Pass.runAll (options.passes.erase .yFree) (.start circuit approximator) := by
  constructor
  · rcases exists_litinski_of_measured fits measured with ⟨transformed, computed⟩
    exact ⟨circuit.yFree, transformed, checkedYFree_eq circuit,
      (litinski_yFree fits measured).trans computed, computed⟩
  · intro options approximator chosen
    let analyses := (if options.scheduling = .parallel then [Pass.dependencies] else []) ++
      [Pass.verification]
    let rest := Pass.yFree :: analyses
    have passes : options.passes = .basicForm :: .yFree :: .litinski :: rest := by
      rw [Options.passes, chosen]
      rfl
    have erased : options.passes.erase .yFree = .basicForm :: .litinski :: rest := by
      rw [passes]
      rfl
    have regular : circuit.Regular := fun block member => (fits block member).regular
    have wide : ∀ block ∈ circuit.blocks, block.width = width := fun block member =>
      (fits block member).width
    rw [erased, passes, Pass.runAll, Pass.runAll, Pass.runIfNeeded_basicForm regular]
    cases computed : circuit.basicForm approximator with
    | error failure => rfl
    | ok basic =>
        rcases prepared_blocks_basicForm wide computed with ⟨_, prepared⟩
        have basicFits : ∀ block ∈ basic.blocks, block.Fits width := fun block member =>
          ⟨prepared.width block member, (prepared.turnsBasic block member).regular⟩
        have basicMeasured : basic.hasMeasurement = true :=
          prepared.any_isMeasurement.trans measured
        exact Pass.runAll_yFree_litinski basicFits basicMeasured rest

/-- A rotation about YZ by three eighths, a quarter rotation and a measurement of -YX. -/
theorem normalization_absorbed_threeEighths :
    let circuit : Circuit := ⟨2, [.rotation [.Y, .Z] { numer := 3, denom := 8 },
      .rotation [.Y, .Y] .negQuarter, .measurement [.Y, .X] true]⟩
    ∃ normalized transformed, circuit.checkedYFree = .ok normalized ∧ normalized ≠ circuit ∧
      normalized.litinski = .ok transformed ∧ circuit.litinski = .ok transformed ∧
      Pass.runAll ({} : Options).passes (.start circuit .none) =
        Pass.runAll [.basicForm, .litinski, .yFree, .verification] (.start circuit .none) := by
  intro circuit
  have fits : ∀ block ∈ circuit.blocks, block.Fits 2 := by decide +kernel
  have measured : circuit.hasMeasurement = true := by decide
  rcases normalization_absorbed fits measured with ⟨⟨normalized, transformed, free, same⟩, passes⟩
  refine ⟨normalized, transformed, free, ?_, same.1, same.2, passes {} .none rfl⟩
  rintro rfl
  exact absurd free (by decide +kernel)

end Circuit

end LatticeSurgery
