import LatticeSurgery.Proofs.Circuit.Fitting

namespace LatticeSurgery

open Result

/-! # Calls on circuits

A session holds circuits and makes calls one after the other. A call either makes a new
circuit or changes one of the held circuits in place. Whatever calls are made with regular
angles, the circuits stay uniform and a call that fails leaves them as they were. -/

/-- A call on held circuits, which are named by their positions. -/
inductive Call where
  | new (qubits : Nat)
  | ofBlocks (qubits : Nat) (blocks : List Block)
  | join (members : List Nat)
  | addBlock (target : Nat) (block : Block)
  | insertBlock (target index : Nat) (block : Block)
  | addRotation (target qubit : Nat) (symbol : Pauli) (angle : Angle)
  | swapQuarter (target index : Nat)
  | litinski (target : Nat)
  | yFree (target : Nat)
  | basicForm (target : Nat) (approximator : Approximator)

namespace Call

/-- Hold a new circuit behind the others. -/
def hold (made : Result CircuitError Circuit) : Update CircuitError (List Circuit) Unit := do
  let circuit ← Update.lift made
  modify fun held => held ++ [circuit]

/-- Hold what is made from a held circuit. Nothing is done to circuits that are not held. -/
def derive (target : Nat) (make : Circuit → Result CircuitError Circuit) :
    Update CircuitError (List Circuit) Unit := do
  let held ← get
  match held[target]? with
  | none => return
  | some circuit => hold (make circuit)

/-- Change a held circuit in place. What a failed edit leaves behind is held as well. -/
def edit (target : Nat) (change : Circuit.Edit) : Update CircuitError (List Circuit) Unit :=
  fun held =>
    match held[target]? with
    | none => .ok () held
    | some circuit =>
        match change.run circuit with
        | .ok _ after => .ok () (held.set target after)
        | .error failure after => .error failure (held.set target after)

def perform : Call → Update CircuitError (List Circuit) Unit
  | new qubits => hold (.ok (.empty qubits))
  | ofBlocks qubits blocks => hold (Circuit.ofBlocks qubits blocks)
  | join members => do
      let held ← get
      hold (Circuit.join (members.filterMap fun member => held[member]?))
  | addBlock target block => edit target (Circuit.addBlock block)
  | insertBlock target index block => edit target (Circuit.insertBlock index block)
  | addRotation target qubit symbol angle => edit target (Circuit.addRotation qubit symbol angle)
  | swapQuarter target index => edit target (Circuit.swapQuarter index)
  | litinski target => edit target Circuit.absorbAll
  | yFree target => derive target fun circuit => ofFaulty circuit.checkedYFree
  | basicForm target approximator => derive target (Circuit.basicForm approximator)

/-- The circuits that are held after a list of calls, whether or not they failed. -/
def session (calls : List Call) : List Circuit :=
  calls.foldl (fun held call => call.perform.leaves held) []

/-- The angles that a call brings along are regular. -/
def Fair : Call → Prop
  | ofBlocks _ blocks => ∀ block ∈ blocks, block.TurnsRegular
  | addBlock _ block => block.TurnsRegular
  | insertBlock _ _ block => block.TurnsRegular
  | addRotation _ _ _ angle => angle.Regular
  | _ => True

/-- The call adds a rotation to a circuit on so many qubits that the symbols of a block
cannot be stored. -/
def Oversized (held : List Circuit) (call : Call) : Prop :=
  ∃ target qubit symbol angle circuit, call = addRotation target qubit symbol angle ∧
    held[target]? = some circuit ∧ Word.limit64 ≤ circuit.qubits

/-- The call passes a fault of its approximator on. -/
def PassesOn (cause : Fault) (call : Call) : Prop :=
  ∃ target approximator, call = basicForm target approximator ∧
    ∃ angle : Angle, angle.Regular ∧ approximator angle = .error cause

/-- The faults with which a call may end. -/
def MayEnd (held : List Circuit) (call : Call) (cause : Fault) : Prop :=
  cause = .storage ∧ call.Oversized held ∨ call.PassesOn cause

/-- What a call does to the held circuits: they stay sound on their qubits. -/
structure Keeps (held after : List Circuit) : Prop where
  sound : ∀ circuit ∈ after, circuit.Sound circuit.qubits
  qubits : held.map Circuit.qubits <+: after.map Circuit.qubits

variable {held : List Circuit} {May : Fault → Prop}

theorem run_edit_ok {target : Nat} {change : Circuit.Edit} {circuit after : Circuit}
    (found : held[target]? = some circuit) (run : change.run circuit = .ok () after) :
    (edit target change).run held = .ok () (held.set target after) := by
  change edit target change held = _
  simp only [edit, found, run]

theorem set_eq_self {target : Nat} {circuit : Circuit} (found : held[target]? = some circuit) :
    held.set target circuit = held := by
  rcases List.getElem?_eq_some_iff.mp found with ⟨inside, rfl⟩
  exact List.set_getElem_self inside

/-- What an edit leaves as it was stays as it was among the held circuits. -/
theorem run_edit_error {target : Nat} {change : Circuit.Edit} {circuit : Circuit}
    {failure : Failure CircuitError} (found : held[target]? = some circuit)
    (run : change.run circuit = .error failure circuit) :
    (edit target change).run held = .error failure held := by
  change edit target change held = _
  simp only [edit, found, run, set_eq_self found]

/-- A rotation of a circuit on too many qubits is not even begun. -/
theorem run_of_oversized {call : Call} (oversized : call.Oversized held) :
    call.perform.run held = .error (.fault .storage) held := by
  rcases oversized with ⟨target, qubit, symbol, angle, circuit, rfl, found, large⟩
  rw [perform]
  exact run_edit_error found (Circuit.run_addRotation_of_large large qubit symbol angle)

section Steps

variable (sound : ∀ circuit ∈ held, circuit.Sound circuit.qubits)

include sound

theorem atomic_hold {made : Result CircuitError Circuit}
    (ends : Ends May (fun circuit => circuit.Sound circuit.qubits) made) :
    Update.Atomic May (Keeps held) (hold made) held := by
  apply Update.Atomic.lift_bind ends
  intro circuit circuitSound
  refine .ok rfl ⟨?_, ?_⟩
  · intro other member
    rcases List.mem_append.mp member with old | new
    · exact sound other old
    · rw [List.mem_singleton.mp new]
      exact circuitSound
  · rw [List.map_append]
    exact List.prefix_append _ _

theorem atomic_skip {update : Update CircuitError (List Circuit) Unit}
    (skips : update.run held = .ok () held) : Update.Atomic May (Keeps held) update held :=
  .ok skips ⟨sound, List.prefix_refl _⟩

theorem atomic_derive (target : Nat) {make : Circuit → Result CircuitError Circuit}
    (ends : ∀ circuit ∈ held, Ends May (fun circuit => circuit.Sound circuit.qubits)
      (make circuit)) :
    Update.Atomic May (Keeps held) (derive target make) held := by
  apply Update.Atomic.get_bind
  cases found : held[target]? with
  | none => exact atomic_skip sound rfl
  | some circuit => exact atomic_hold sound (ends circuit (List.mem_of_getElem? found))

theorem atomic_edit (target : Nat) {change : Circuit.Edit}
    (atomic : ∀ circuit, held[target]? = some circuit →
      Update.Atomic May (Circuit.Sound circuit.qubits) change circuit) :
    Update.Atomic May (Keeps held) (edit target change) held := by
  cases found : held[target]? with
  | none =>
      apply atomic_skip sound
      change edit target change held = _
      simp only [edit, found]
  | some circuit =>
      cases atomic circuit found with
      | ok run afterSound =>
          refine .ok (run_edit_ok found run) ⟨?_, ?_⟩
          · intro other member
            rcases List.mem_or_eq_of_mem_set member with old | rfl
            · exact sound other old
            · exact afterSound.self
          · rw [List.map_set, afterSound.qubits_eq, ← List.map_set, set_eq_self found]
      | refused run => exact .refused (run_edit_error found run)
      | fault run may => exact .fault (run_edit_error found run) may

/-- A call is made to its end, or it fails without a trace. -/
theorem atomic_perform {call : Call} (fair : call.Fair) :
    Update.Atomic (call.MayEnd held) (Keeps held) call.perform held := by
  cases call with
  | new qubits => exact atomic_hold sound (.ok (Circuit.sound_empty qubits))
  | ofBlocks qubits blocks =>
      apply atomic_hold sound
      exact (Circuit.ends_ofBlocks fair).imp fun _ made => made.self
  | join members =>
      apply Update.Atomic.get_bind
      apply atomic_hold sound (Circuit.ends_join _)
      intro circuit member
      rcases List.mem_filterMap.mp member with ⟨position, _, found⟩
      exact sound circuit (List.mem_of_getElem? found)
  | addBlock target block =>
      apply atomic_edit sound
      intro circuit found
      exact (sound circuit (List.mem_of_getElem? found)).atomic_addBlock fair
  | insertBlock target index block =>
      apply atomic_edit sound
      intro circuit found
      exact (sound circuit (List.mem_of_getElem? found)).atomic_insertBlock index fair
  | addRotation target qubit symbol angle =>
      rw [perform]
      apply atomic_edit sound
      intro circuit found
      apply (sound circuit (List.mem_of_getElem? found)).atomic_addRotation _ qubit symbol fair
      intro large
      exact .inl ⟨rfl, target, qubit, symbol, angle, circuit, rfl, found, large⟩
  | swapQuarter target index =>
      apply atomic_edit sound
      intro circuit found
      exact (sound circuit (List.mem_of_getElem? found)).atomic_swapQuarter index
  | litinski target =>
      apply atomic_edit sound
      intro circuit found
      exact (sound circuit (List.mem_of_getElem? found)).atomic_absorbAll
  | yFree target =>
      apply atomic_derive sound
      intro circuit member
      rw [Circuit.checkedYFree_eq]
      exact .ok (sound circuit member).yFree
  | basicForm target approximator =>
      apply atomic_derive sound
      intro circuit member
      have asks : ∀ angle : Angle, angle.Regular → ∀ cause, approximator angle = .error cause →
          (basicForm target approximator).MayEnd held cause := fun angle regular cause answered =>
        .inr ⟨target, approximator, rfl, angle, regular, answered⟩
      exact ((sound circuit member).ends_basicForm asks).imp fun _ basic => basic.self

/-- Every call keeps the held circuits sound, also when it fails. -/
theorem keeps_leaves {call : Call} (fair : call.Fair) :
    Keeps held (call.perform.leaves held) :=
  (atomic_perform sound fair).holds_leaves ⟨sound, List.prefix_refl _⟩

end Steps

theorem session_append (calls : List Call) (call : Call) :
    session (calls ++ [call]) = call.perform.leaves (session calls) := by
  rw [session, List.foldl_append]
  rfl

theorem sound_session {calls : List Call} (fair : ∀ call ∈ calls, call.Fair) :
    ∀ circuit ∈ session calls, circuit.Sound circuit.qubits := by
  induction calls using List.reverseRecOn with
  | nil => exact List.forall_mem_nil _
  | append_singleton calls call induction =>
      rw [List.forall_mem_append, List.forall_mem_singleton] at fair
      rw [session_append]
      exact (keeps_leaves (induction fair.1) fair.2).sound

/-- After any fair calls the held circuits are uniform. A further call keeps their numbers of
qubits and leaves them as they were when it fails. It faults when it adds a rotation to a
circuit on too many qubits, and otherwise only with a fault of an approximator. -/
theorem uniform_session (calls : List Call) (fair : ∀ call ∈ calls, call.Fair) :
    (∀ circuit ∈ session calls, circuit.Uniform) ∧
      ∀ call : Call, call.Fair →
        (session calls).map Circuit.qubits <+: (session (calls ++ [call])).map Circuit.qubits ∧
        (∀ failure, call.perform.result (session calls) = .error failure →
          session (calls ++ [call]) = session calls) ∧
        (∀ cause, call.perform.result (session calls) = .error (.fault cause) →
          cause = .storage ∧ call.Oversized (session calls) ∨ call.PassesOn cause) ∧
        (call.Oversized (session calls) →
          call.perform.result (session calls) = .error (.fault .storage)) := by
  have sound := sound_session fair
  constructor
  · exact fun circuit member => (sound circuit member).uniform
  · intro call callFair
    rw [session_append]
    refine ⟨(keeps_leaves sound callFair).qubits, ?_, ?_, fun oversized =>
      Update.result_of_error (run_of_oversized oversized)⟩
    · intro failure failed
      cases atomic_perform sound callFair with
      | ok run _ => simp [Update.result_of_ok run] at failed
      | refused run => exact Update.leaves_of_error run
      | fault run _ => exact Update.leaves_of_error run
    · intro cause failed
      cases atomic_perform sound callFair with
      | ok run _ => simp [Update.result_of_ok run] at failed
      | refused run => simp [Update.result_of_error run] at failed
      | fault run may =>
          rw [Update.result_of_error run, Except.error.injEq, Failure.fault.injEq] at failed
          rw [← failed]
          exact may

/-- All kinds of calls, two of them refused. The transform of the first circuit is refused as
well, the last circuit is too wide for a rotation, and the table has all the answers. -/
theorem uniform_session_allKinds :
    let sixteenth : Angle := { numer := 1, denom := 16 }
    let table : ApproximationTable := ⟨[(sixteenth, [.H, .T, .H])]⟩
    let calls : List Call := [new 2,
      ofBlocks 2 [.rotation [.Y, .Y] .quarter, .rotation [.Z, .I] sixteenth,
        .measurement [.X, .Y] true],
      addRotation 0 1 .Z .eighth, insertBlock 0 0 (.rotation [.X, .Y] .negQuarter),
      addBlock 0 (.measurement [.Z] false), swapQuarter 0 0, yFree 1, litinski 2, join [1, 0],
      basicForm 1 Approximator.none, basicForm 3 table.approximator, new 9223372036854775808]
    let held := session calls
    held.map Circuit.size = [2, 3, 2, 5, 11, 0] ∧ (∀ circuit ∈ held, circuit.Uniform) ∧
      (litinski 0).perform.result held = .error (.refused .missingMeasurement) ∧
      session (calls ++ [litinski 0]) = held ∧
      (addRotation 5 0 .X .quarter).perform.result held = .error (.fault .storage) ∧
      ∀ cause, (basicForm 2 table.approximator).perform.result held ≠ .error (.fault cause) := by
  intro sixteenth table calls held
  have sizes : held.map Circuit.size = [2, 3, 2, 5, 11, 0] := by decide +kernel
  have widest : held[5]? = some (.empty 9223372036854775808) := by decide +kernel
  have fails : (litinski 0).perform.result held = .error (.refused .missingMeasurement) := by
    decide +kernel
  have turns : Angle.quarter.Regular := by decide
  have fair : ∀ call ∈ calls, call.Fair := by
    simp only [calls, List.forall_mem_cons, Fair]
    exact ⟨trivial, by decide, by decide, by decide, by decide, trivial, trivial, trivial, trivial,
      trivial, trivial, trivial, List.forall_mem_nil _⟩
  rcases uniform_session calls fair with ⟨uniform, further⟩
  refine ⟨sizes, uniform, fails, (further (litinski 0) trivial).2.1 _ fails,
    (further (addRotation 5 0 .X .quarter) turns).2.2.2
      ⟨5, 0, .X, .quarter, _, rfl, widest, by decide⟩, fun cause failed => ?_⟩
  rcases (further (basicForm 2 table.approximator) trivial).2.2.1 cause failed with
    ⟨_, _, _, _, _, _, isRotation, _⟩ | ⟨_, _, isBasicForm, angle, regular, asked⟩
  · cases isRotation
  · cases isBasicForm
    rcases table.exists_approximator regular with ⟨answer, answered⟩
    rw [asked] at answered
    cases answered

/-- A rotation about a qubit that the circuit does not have, on so many qubits that it is
not refused. -/
theorem fault_of_wideCircuit :
    let calls : List Call := [new 9223372036854775808]
    let call : Call := addRotation 0 9223372036854775808 .X .quarter
    (∀ call ∈ calls, call.Fair) ∧ call.Fair ∧
      call.perform.result (session calls) = .error (.fault .storage) := by
  intro calls call
  have oversized : call.Oversized (session calls) :=
    ⟨0, 9223372036854775808, .X, .quarter, .empty 9223372036854775808, rfl, rfl, by decide⟩
  have turns : Angle.quarter.Regular := by decide
  exact ⟨List.forall_mem_singleton.mpr trivial, turns,
    Update.result_of_error (run_of_oversized oversized)⟩

end Call

end LatticeSurgery
