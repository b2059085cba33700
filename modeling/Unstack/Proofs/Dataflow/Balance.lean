import Unstack.Proofs.Dataflow.Solution

namespace Unstack

namespace Frame

/-- The stack had `taken` values, lost them and got `given` others. -/
def Turns (taken given : Nat) (f f' : Frame) : Prop :=
  taken ≤ f.stack.length ∧ f'.stack.length = f.stack.length - taken + given

namespace Turns

variable {f f' f'' : Frame} {taken given more : Nat}

theorem refl (f : Frame) : Turns 0 0 f f := ⟨Nat.zero_le _, rfl⟩

/-- What is given later is added to what was given before. -/
theorem give (first : Turns taken given f f') (second : Turns 0 more f' f'') : Turns taken (given + more) f f'' := by
  unfold Turns at *
  omega

theorem take (first : Turns taken 0 f f') (second : Turns more given f' f'') : Turns (taken + more) given f f'' := by
  unfold Turns at *
  omega

theorem push {value : SymValue} (run : f.push value = .ok f') : Turns 0 1 f f' := by
  rw [push_eq run]
  exact ⟨Nat.zero_le _, rfl⟩

theorem pop {value : SymValue} (run : f.pop = .ok (value, f')) : Turns 1 0 f f' := by
  unfold Frame.pop at run
  split at run <;> cases run
  rename_i stack
  simp [Turns, stack]

theorem popMany {count : Nat} (run : f.popMany count = .ok f') : Turns count 0 f f' := by
  unfold Frame.popMany at run
  split at run <;> cases run
  exact ⟨by omega, List.length_drop⟩

theorem setReg {r : Nat} {value : Option SymValue} (run : f.setReg r value = .ok f') : Turns 0 0 f f' := by
  unfold Frame.setReg at run
  split at run <;> cases run
  exact refl f

/-- A result takes the place of the values that it is computed from. -/
theorem replace {pc count : Nat} {t : JavaType} (run : f.replace pc count t = .ok f') : Turns count 1 f f' := by
  obtain ⟨mid, taken, given⟩ := bind_eq_ok.mp run
  exact (popMany taken).give (.push given)

theorem store {pc reg : Nat} {t : JavaType} (run : f.store pc t reg = .ok f') : Turns 1 0 f f' := by
  obtain ⟨⟨value, rest⟩, taken, run⟩ := bind_eq_ok.mp run
  obtain ⟨mid, set, run⟩ := bind_eq_ok.mp run
  have kept : Turns 0 0 mid f' := by
    split at run
    · exact .setReg run
    · cases run
      exact refl _
  exact ((pop taken).give (setReg set)).give kept

/-- A copy takes the values of its shape and gives the upper ones twice. -/
theorem dup {form : DupForm} (run : f.dup form = .ok f') :
    Turns (form.shape.1 + form.shape.2) (2 * form.shape.1 + form.shape.2) f f' := by
  obtain ⟨enough, _, rfl⟩ := dup_eq_ok.mp run
  simp only [Turns, dupStack, List.length_append, List.length_take, List.length_drop]
  omega

end Turns

/-- An operation that counts values turns the stack as it declares. -/
theorem execute_turns {f f' : Frame} {pc : Nat} {instr : Instr} (counted : instr.onValues? f = none)
    (run : f.execute pc instr = .ok f') : Turns instr.takes instr.gives f f' := by
  cases instr with
  | arith | neg | arrayLength | cast | compare | instanceOf | get | createArray => exact .replace run
  | arrayStore | put | jumpCompare | jumpZero | monitor | switch | raise => exact .popMany run
  | create | push => exact .push run
  | inc => exact .setReg run
  | store => exact .store run
  | goto =>
    cases run
    exact .refl f
  | dup form =>
    have same : form.onValues f = form := by simpa [Instr.onValues?] using counted
    simp only [execute, same] at run
    exact .dup run
  | pop form =>
    have same : form.onValues f = form := by simpa [Instr.onValues?] using counted
    simp only [execute, same] at run
    exact .popMany run
  | load =>
    simp only [execute, load] at run
    split at run
    · cases run
    · exact .push run
  | leaveSub =>
    simp only [execute] at run
    split at run <;> cases run
    exact .refl f
  | leave t =>
    simp only [execute] at run
    by_cases nothing : t = .void
    · rw [if_pos nothing] at run
      cases run
      simp only [Instr.takes, if_pos nothing]
      exact .refl f
    · rw [if_neg nothing] at run
      simp only [Instr.takes, if_neg nothing]
      exact .popMany run
  | arrayLoad =>
    obtain ⟨⟨_, mid⟩, first, run⟩ := bind_eq_ok.mp run
    obtain ⟨⟨array, rest⟩, second, run⟩ := bind_eq_ok.mp run
    exact ((Turns.pop first).take (.pop second)).give (.push run)
  | swap =>
    obtain ⟨⟨a, mid⟩, first, run⟩ := bind_eq_ok.mp run
    obtain ⟨⟨b, rest⟩, second, run⟩ := bind_eq_ok.mp run
    obtain ⟨last, third, run⟩ := bind_eq_ok.mp run
    exact (((Turns.pop first).take (.pop second)).give (.push third)).give (.push run)
  | fillArray =>
    obtain ⟨⟨array, mid⟩, first, run⟩ := bind_eq_ok.mp run
    exact (Turns.pop first).give (.push run)
  | invoke method direct =>
    obtain ⟨mid, first, run⟩ := bind_eq_ok.mp run
    by_cases nothing : method.returnsVoid
    · rw [if_pos nothing] at run
      cases run
      simp only [Instr.gives, if_pos nothing]
      exact .popMany first
    · rw [if_neg nothing] at run
      simp only [Instr.gives, if_neg nothing]
      exact (Turns.popMany first).give (.push run)
  | enterSub target =>
    obtain ⟨mid, first, run⟩ := bind_eq_ok.mp run
    cases run
    exact (Turns.push first : Turns 0 1 f mid)

end Frame

theorem Instr.onValues?_idem {instr form : Instr} {f : Frame} (other : instr.onValues? f = some form) :
    form.onValues? f = none := by
  unfold Instr.onValues? at other
  split at other
  · split at other <;> cases other
    exact if_pos (DupForm.onValues_onValues _ f)
  · split at other <;> cases other
    exact if_pos (PopForm.onValues_onValues _ f)
  · cases other

theorem Operation.given_mem {forms : List (Nat × Instr)} {o : Operation} {form : Nat × Instr} (member : form ∈ forms)
    (atPc : form.1 = o.pc) : ∃ form' ∈ forms, form'.1 = o.pc ∧ o.given forms = { o with instr := form'.2 } := by
  induction forms generalizing o with
  | nil => cases member
  | cons first rest ih =>
    rw [given_cons]
    by_cases here : o.pc = first.1
    · rw [if_pos here]
      rcases given_eq rest { o with instr := first.2 } with same | ⟨later, inside, atPc', same⟩
      · exact ⟨first, .head _, here.symm, same⟩
      · exact ⟨later, .tail _ inside, atPc', same⟩
    · rw [if_neg here]
      have inside : form ∈ rest := (List.mem_cons.mp member).resolve_left fun same => here (by rw [← same, atPc])
      obtain ⟨form', inside', facts⟩ := ih inside atPc
      exact ⟨form', .tail _ inside', facts⟩

namespace Graph

variable {g g' : Graph} {m : MethodInput} {options : Options}

section Counted

variable {m : MethodInput} {g : Graph} {o : Operation} {f : Frame}

/-- The form that counts values is listed for its operation. -/
theorem slotForms_mem (listed : g.ops[o.pc]? = some o) (holds : g.Holds o.pc f) {form : Instr}
    (other : o.instr.onValues? f = some form) : (o.pc, form) ∈ g.slotForms := by
  refine List.mem_filterMap.mpr ⟨((o, some f), o.pc), List.mem_zipIdx_iff_getElem?.mpr ?_, by simp [other]⟩
  exact List.getElem?_zip_eq_some.mpr ⟨by simpa using listed, by simpa [Holds] using holds⟩

/-- The operation as the analysis leaves it counts values on the frame before it. -/
theorem counted_onValues (listed : g.ops[o.pc]? = some o) (holds : g.Holds o.pc f) :
    (g.counted o).instr.onValues? f = none := by
  cases other : o.instr.onValues? f with
  | none =>
    rcases counted_eq listed with same | ⟨f', form, holds', other', same⟩
    · rwa [same]
    · cases holds.symm.trans holds'
      cases other.symm.trans other'
  | some form =>
    obtain ⟨⟨pc, form'⟩, inside, rfl, same⟩ := Operation.given_mem (slotForms_mem listed holds other) rfl
    obtain ⟨o', f', listed', holds', other'⟩ := mem_slotForms inside
    cases listed.symm.trans listed'
    cases holds.symm.trans holds'
    rw [counted, same]
    exact Instr.onValues?_idem other'

theorem countValues_op (laid : g.Laid m) (listed : g.ops[o.pc]? = some o) :
    g.countValues.ops[(g.counted o).pc]? = some (g.counted o) := by
  rw [countValues_eq laid, counted_pc]
  simp only [given, Array.getElem?_map, listed]
  rfl

end Counted

/-- Each operation on the way was executed on the frame that is held for it. -/
theorem Traces.executes {ops : List Operation} {f last : Frame} {frames : List Frame}
    (traces : g.Traces ops f frames last) {o : Operation} (member : o ∈ ops) :
    ∃ before after, g.Holds o.pc before ∧ before.execute o.pc o.instr = .ok after := by
  induction traces with
  | nil => cases member
  | cons holds executes _ ih =>
    rcases List.mem_cons.mp member with rfl | member
    · exact ⟨_, _, holds, executes⟩
    · exact ih member

/-- An analysis that succeeds makes a round at least, and it ends where no visit of a block changes anything. -/
theorem Built.solve_rests (ofMethod : g.Built m)
    (solved : g.solve options = .ok (.ok (), g')) :
    ∃ params s, m.info.startFrame = .ok params ∧ 0 < options.maxRounds ∧ Solver.Rests m g params s ∧
      g' = s.graph.countValues := by
  obtain ⟨params, _, mid, last, started, _, _, arrived, rounds, same⟩ := ofMethod.solve_runs solved
  have sound := (Sound.initial ofMethod started).2
  rw [← arrived] at sound
  have listed : mid.graph.Listed := by
    rw [arrived]
    exact ofMethod.listed
  have ⟨positive, rests⟩ := Solver.rounds_rests ofMethod sound listed rounds
  exact ⟨params, last, started, positive, rests, same⟩

theorem Built.solve_settles (ofMethod : g.Built m)
    (solved : g.solve options = .ok (.ok (), g')) :
    ∃ params s, Sound m g params none s.graph ∧ s.Still ∧
      (∀ b, s.graph.Reachable b → Solver.Runs (Solver.propagate b) s () s) ∧ g' = s.graph.countValues := by
  obtain ⟨params, s, _, _, rests, same⟩ := ofMethod.solve_rests solved
  exact ⟨params, s, rests.sound, rests.still, rests.quiet, same⟩

/-- After an analysis that succeeds, declared sizes are exact at every operation that can be reached: it stands in
its block as in the list of the method, finds the values that it takes, and leaves those that it gives in their place. -/
theorem solve_balanced {m : MethodInput} {g g' : Graph} {options : Options} {b : BlockId} {block : Block} {o : Operation}
    (run : (Graph.ofMethod m).run = .ok (.ok g)) (solved : g.solve options = .ok (.ok (), g'))
    (reachable : g'.Reachable b) (found : g'.blocks[b]? = some block) (member : o ∈ block.ops) :
    g'.ops[o.pc]? = some o ∧ ∃ f f', g'.Holds o.pc f ∧ f.execute o.pc o.instr = .ok f' ∧
      o.instr.takes ≤ f.stack.length ∧ f'.stack.length = f.stack.length - o.instr.takes + o.instr.gives := by
  have ofMethod := (ofMethod_yields m).of_run run
  obtain ⟨params, s, sound, still, quiet, rfl⟩ := ofMethod.solve_settles solved
  have laid := ofMethod.toLaid.congr sound.toSameCode
  obtain ⟨before, found', rfl⟩ := (countValues_block laid).mp found
  obtain ⟨old, member', rfl⟩ := List.mem_map.mp member
  have reachable' := (countValues_reachable laid).mp reachable
  have listed := laid.op_listed found' member'
  have known := Solver.known_of_reachable ofMethod sound still quiet reachable' found'
  obtain ⟨⟨_, _, _, traces⟩, _⟩ :=
    Solver.still_propagate still found' (laid.segment b before found').1 known (quiet b reachable')
  obtain ⟨f, f', holds, executes⟩ := traces.executes member'
  have executes' := (execute_counted listed holds).trans executes
  exact ⟨countValues_op laid listed, f, f', (countValues_holds laid).mpr holds, executes',
    Frame.execute_turns (counted_onValues listed holds) executes'⟩

/-- A wide value is copied and dropped by slots. -/
def twice : MethodInput where
  info := MethodInfo.plain "twice" 1 4
  ops := [⟨0, 0, -1, .push .long (.int 3)⟩, ⟨0, 0, -1, .dup .dup2⟩, ⟨0, 0, -1, .pop .pop2⟩, ⟨0, 0, -1, .leave .long⟩]
  exceptions := []

theorem solve_balanced_twice : ∃ g g' block o, (Graph.ofMethod twice).run = .ok (.ok g) ∧
    g.solve {} = .ok (.ok (), g') ∧ g'.Reachable g'.start ∧ g'.blocks[g'.start]? = some block ∧ o ∈ block.ops ∧
    o.instr.takes = 1 ∧ o.instr.gives = 2 ∧ g'.ops[o.pc]? = some o ∧
    ∃ f f', g'.Holds o.pc f ∧ f.execute o.pc o.instr = .ok f' ∧
      o.instr.takes ≤ f.stack.length ∧ f'.stack.length = f.stack.length - o.instr.takes + o.instr.gives := by
  have copied : (solved? twice {}).any fun g' => (g'.blocks[g'.start]?).any fun block =>
      block.ops.any fun o => o.instr.takes = 1 ∧ o.instr.gives = 2 := by decide +kernel
  obtain ⟨g, g', run, solved⟩ := solves_of_isSome (show (solved? twice {}).isSome by decide +kernel)
  have given : solved? twice {} = some g' := by simp [solved?, Building.result?, run, solved]
  rw [given, Option.any_some] at copied
  cases found : g'.blocks[g'.start]? with
  | none => simp [found] at copied
  | some block =>
    rw [found, Option.any_some, List.any_eq_true] at copied
    obtain ⟨o, member, sizes⟩ := copied
    obtain ⟨takes, gives⟩ := of_decide_eq_true sizes
    exact ⟨g, g', block, o, run, solved, .refl, found, member, takes, gives,
      solve_balanced run solved .refl found member⟩

end Graph

end Unstack
