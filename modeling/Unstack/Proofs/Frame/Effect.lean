import Unstack.Dataflow
import Unstack.Proofs.Frame.Merge
import Unstack.Proofs.Outcome

namespace Unstack

variable {f f' : Frame} {pc : Nat} {t : JavaType}

theorem dupStack_append {α : Type} (xs ys zs : List α) :
    dupStack xs.length ys.length (xs ++ (ys ++ zs)) = xs ++ (ys ++ (xs ++ zs)) := by
  rw [dupStack, List.take_left, ← List.append_assoc, ← List.length_append, List.take_left, List.drop_left]
  simp only [List.append_assoc]

namespace Frame

variable {value : SymValue} {count : Nat} {values : List SymValue}

/-- There is room for `count` more values on the stack. -/
def Room (f : Frame) (count : Nat) : Prop := f.maxStack = 0 ∨ f.stack.length + count ≤ f.maxStack

theorem push_eq_ok : f.push value = .ok f' ↔ f.Room 1 ∧ f' = { f with stack := value :: f.stack } := by
  unfold push Room
  split
  · rename_i full
    simp only [ne_eq, Bool.and_eq_true, decide_eq_true_eq] at full
    simp only [reduceCtorEq, false_iff, not_and]
    omega
  · rename_i free
    simp only [ne_eq, Bool.and_eq_true, decide_eq_true_eq] at free
    simp only [Except.ok.injEq, eq_comm (a := f'), iff_and_self]
    omega

theorem push_eq (run : f.push value = .ok f') : f' = { f with stack := value :: f.stack } := (push_eq_ok.mp run).2

theorem takeMany_eq_ok : f.takeMany count = .ok (values, f') ↔
      count ≤ f.stack.length ∧ values = f.stack.take count ∧ f' = { f with stack := f.stack.drop count } := by
  induction count generalizing f f' values with
  | zero =>
    constructor
    · intro run
      cases run
      exact ⟨Nat.zero_le _, rfl, rfl⟩
    · rintro ⟨_, rfl, rfl⟩
      rfl
  | succ count ih =>
    obtain ⟨regs, stack, subs, maxStack⟩ := f
    cases stack with
    | nil => simp [takeMany, pop, bind, Except.bind]
    | cons top rest =>
      simp only [takeMany, pop, ok_bind, bind_eq_ok, Prod.exists, ih, List.length_cons, List.take_succ_cons,
        List.drop_succ_cons, Nat.add_le_add_iff_right]
      constructor
      · rintro ⟨_, _, ⟨enough, rfl, rfl⟩, same⟩
        cases same
        exact ⟨enough, rfl, rfl⟩
      · rintro ⟨enough, rfl, rfl⟩
        exact ⟨_, _, ⟨enough, rfl, rfl⟩, rfl⟩

theorem pushMany_eq_ok :
    f.pushMany values = .ok f' ↔ (values = [] ∨ f.Room values.length) ∧ f' = { f with stack := values ++ f.stack } := by
  induction values generalizing f' with
  | nil => exact ⟨fun run => ⟨.inl rfl, (Except.ok.inj run).symm⟩, fun ⟨_, same⟩ => congrArg Except.ok same.symm⟩
  | cons value rest ih =>
    -- the last push needs the most room
    simp only [pushMany, bind_eq_ok, ih, push_eq_ok]
    constructor
    · rintro ⟨_, ⟨_, rfl⟩, room, rfl⟩
      refine ⟨.inr ?_, rfl⟩
      simp only [Room, List.length_append, List.length_cons] at room ⊢
      omega
    · rintro ⟨room, rfl⟩
      have room := room.resolve_left (List.cons_ne_nil _ _)
      simp only [Room, List.length_cons] at room
      refine ⟨_, ⟨.inr ?_, rfl⟩, ?_, rfl⟩
      · unfold Room
        omega
      · simp only [Room, List.length_append]
        omega

/-- The values that are taken and pushed again end up copied below the ones under them. -/
theorem dup_eq_ok {form : DupForm} :
    f.dup form = .ok f' ↔ form.shape.1 + form.shape.2 ≤ f.stack.length ∧ f.Room form.shape.1 ∧
      f' = { f with stack := dupStack form.shape.1 form.shape.2 f.stack } := by
  have copies : 1 ≤ form.shape.1 := by cases form <;> decide
  have whole : dupStack form.shape.1 form.shape.2 f.stack = f.stack.take form.shape.1 ++
      ((f.stack.drop form.shape.1).take form.shape.2 ++
        (f.stack.take form.shape.1 ++ (f.stack.drop form.shape.1).drop form.shape.2)) := by
    rw [dupStack, List.take_add, List.drop_drop]
    simp only [List.append_assoc]
  simp only [dup, bind_eq_ok, Prod.exists, takeMany_eq_ok, pushMany_eq_ok, whole]
  constructor
  · rintro ⟨_, _, ⟨enough, rfl, rfl⟩, _, _, ⟨enough', rfl, rfl⟩, _, ⟨_, rfl⟩, _, ⟨_, rfl⟩, room, rfl⟩
    rw [List.length_drop] at enough'
    have last := room.resolve_left fun none => by
      have length := congrArg List.length none
      rw [List.length_take, List.length_nil] at length
      omega
    simp only [Room, List.length_append, List.length_take, List.length_drop] at last
    exact ⟨by omega, by unfold Room; omega, rfl⟩
  · rintro ⟨enough, room, rfl⟩
    unfold Room at room
    refine ⟨_, _, ⟨by omega, rfl, rfl⟩, _, _, ⟨by rw [List.length_drop]; omega, rfl, rfl⟩, _, ⟨.inr ?_, rfl⟩, _,
      ⟨.inr ?_, rfl⟩, .inr ?_, rfl⟩ <;>
    · simp only [Room, List.length_append, List.length_take, List.length_drop]
      omega

/-- Neither registers nor subroutines become more or fewer, and the registers that are not `touched` keep their
values. -/
def Keeps (touched : Nat → Bool) (f f' : Frame) : Prop :=
  f'.regs.length = f.regs.length ∧ f'.subs = f.subs ∧ ∀ r, touched r = false → f'.reg r = f.reg r

namespace Keeps

variable {touched : Nat → Bool} {f f' f'' : Frame}

theorem refl (f : Frame) : Keeps touched f f := ⟨rfl, rfl, fun _ _ => rfl⟩

theorem trans (first : Keeps touched f f') (second : Keeps touched f' f'') : Keeps touched f f'' :=
  ⟨second.1.trans first.1, second.2.1.trans first.2.1, fun r kept => (second.2.2 r kept).trans (first.2.2 r kept)⟩

theorem withStack (f : Frame) (stack : List SymValue) : Keeps touched f { f with stack } := ⟨rfl, rfl, fun _ _ => rfl⟩

theorem push (run : f.push value = .ok f') : Keeps touched f f' := by
  rw [push_eq run]
  exact .withStack f _

theorem pop (run : f.pop = .ok (value, f')) : Keeps touched f f' := by
  unfold Frame.pop at run
  split at run <;> cases run
  exact .withStack f _

theorem popMany (run : f.popMany count = .ok f') : Keeps touched f f' := by
  unfold Frame.popMany at run
  split at run <;> cases run
  exact .withStack f _

theorem setReg {r : Nat} {value : Option SymValue} (touches : touched r) (run : f.setReg r value = .ok f') :
    Keeps touched f f' := by
  unfold Frame.setReg at run
  split at run <;> cases run
  refine ⟨List.length_set, rfl, fun other kept => ?_⟩
  have different : r ≠ other := fun same => by simp [← same, touches] at kept
  simp only [reg, List.getElem?_set_ne different]

theorem replace (run : f.replace pc count t = .ok f') : Keeps touched f f' := by
  obtain ⟨mid, taken, given⟩ := bind_eq_ok.mp run
  exact (Keeps.popMany taken).trans (.push given)

theorem dup {form : DupForm} (run : f.dup form = .ok f') : Keeps touched f f' := by
  obtain ⟨_, _, rfl⟩ := dup_eq_ok.mp run
  exact .withStack f _

end Keeps

end Frame

/-- The operation writes a register of the frame before it. A wide value takes the next register, too. -/
def Instr.writes (f : Frame) (r : Nat) : Instr → Bool
  | .inc _ reg _ => reg = r
  | .store t reg => reg = r || reg + 1 = r && f.peek.any fun value => (Frame.storedType value t).isWide
  | _ => false

namespace Frame

/-- A store touches only what it is declared to write. -/
theorem Keeps.store {reg : Nat} (run : f.store pc t reg = .ok f') :
    Keeps (fun r => (Instr.store t reg).writes f r) f f' := by
  obtain ⟨⟨value, rest⟩, taken, run⟩ := bind_eq_ok.mp run
  obtain ⟨mid, set, run⟩ := bind_eq_ok.mp run
  refine (Keeps.pop taken).trans ((Keeps.setReg (by simp [Instr.writes]) set).trans ?_)
  split at run
  · rename_i wide
    have top : f.peek = some value := by
      unfold Frame.pop at taken
      split at taken <;> cases taken
      simp [peek, peekAt, *]
    refine .setReg ?_ run
    simp only [Bool.and_eq_true] at wide
    simp [Instr.writes, top, wide.1]
  · cases run
    exact .refl _

/-- An operation changes no register but those that it writes, and the subroutines only by entering one. -/
theorem execute_keeps {instr : Instr} (run : f.execute pc instr = .ok f') : f'.regs.length = f.regs.length ∧
      (f'.subs = f.subs ∨ ∃ target, instr = .enterSub target ∧ f'.subs = f.subs ++ [target]) ∧
      ∀ r, instr.writes f r = false → f'.reg r = f.reg r := by
  have keep (kept : Keeps (fun r => instr.writes f r) f f') : f'.regs.length = f.regs.length ∧
      (f'.subs = f.subs ∨ ∃ target, instr = .enterSub target ∧ f'.subs = f.subs ++ [target]) ∧
      ∀ r, instr.writes f r = false → f'.reg r = f.reg r :=
    ⟨kept.1, .inl kept.2.1, kept.2.2⟩
  cases instr with
  | arith | neg | arrayLength | cast | compare | instanceOf | get | createArray => exact keep (.replace run)
  | arrayStore | pop | put | jumpCompare | jumpZero | monitor | switch | raise => exact keep (.popMany run)
  | create | push => exact keep (.push run)
  | dup => exact keep (.dup run)
  | inc => exact keep (.setReg (by simp [Instr.writes]) run)
  | store => exact keep (.store run)
  | goto =>
    cases run
    exact keep (.refl f)
  | load =>
    simp only [execute, load] at run
    split at run
    · cases run
    · exact keep (.push run)
  | leaveSub =>
    simp only [execute] at run
    split at run <;> cases run
    exact keep (.refl f)
  | leave =>
    simp only [execute] at run
    split at run
    · cases run
      exact keep (.refl f)
    · exact keep (.popMany run)
  | arrayLoad =>
    obtain ⟨⟨_, mid⟩, first, run⟩ := bind_eq_ok.mp run
    obtain ⟨⟨array, rest⟩, second, run⟩ := bind_eq_ok.mp run
    exact keep ((Keeps.pop first).trans ((Keeps.pop second).trans (.push run)))
  | swap =>
    obtain ⟨⟨a, mid⟩, first, run⟩ := bind_eq_ok.mp run
    obtain ⟨⟨b, rest⟩, second, run⟩ := bind_eq_ok.mp run
    obtain ⟨last, third, run⟩ := bind_eq_ok.mp run
    exact keep ((Keeps.pop first).trans ((Keeps.pop second).trans ((Keeps.push third).trans (.push run))))
  | fillArray =>
    obtain ⟨⟨array, mid⟩, first, run⟩ := bind_eq_ok.mp run
    exact keep ((Keeps.pop first).trans (.push run))
  | invoke =>
    obtain ⟨mid, first, run⟩ := bind_eq_ok.mp run
    split at run
    · cases run
      exact keep (.popMany first)
    · exact keep ((Keeps.popMany first).trans (.push run))
  | enterSub target =>
    obtain ⟨mid, first, run⟩ := bind_eq_ok.mp run
    cases run
    have kept : Keeps (fun _ => false) f mid := .push first
    exact ⟨kept.1, .inr ⟨target, rfl, by rw [← kept.2.1]; rfl⟩, fun r _ => kept.2.2 r rfl⟩

end Frame

theorem Solver.handlerFrame_eq (run : handlerFrame pc t f = .ok f') :
    f' = { f with stack := [⟨pc, f.regs.length, t, .defined⟩] } := Frame.push_eq run

/-- A method starts outside of all subroutines. -/
theorem MethodInfo.startFrame_keeps {m : MethodInfo} (run : m.startFrame = .ok f) :
    f.regs.length = m.regs ∧ f.subs = [] := by
  have kept : Frame.Keeps (fun _ => true) (Frame.empty m.regs m.maxStack) f :=
    foldlM_keeps run (.refl _) fun _ _ _ before step => before.trans (.setReg rfl step)
  exact ⟨kept.1.trans List.length_replicate, kept.2.1⟩

theorem DupForm.onValues_onValues (form : DupForm) (f : Frame) : (form.onValues f).onValues f = form.onValues f := by
  cases form <;> simp only [onValues] <;> split_ifs <;> simp_all

theorem PopForm.onValues_onValues (form : PopForm) (f : Frame) : (form.onValues f).onValues f = form.onValues f := by
  cases form with
  | pop => rfl
  | pop2 => by_cases wide : f.isWideAt 0 <;> simp [onValues, wide]

/-- The form that counts values does what the form that counts slots does. -/
theorem Instr.execute_onValues {instr form : Instr} (other : instr.onValues? f = some form) (pc : Nat) :
    f.execute pc form = f.execute pc instr := by
  unfold Instr.onValues? at other
  split at other
  · split at other <;> cases other
    simp only [Frame.execute, DupForm.onValues_onValues]
  · split at other <;> cases other
    simp only [Frame.execute, PopForm.onValues_onValues]
  · cases other

end Unstack
