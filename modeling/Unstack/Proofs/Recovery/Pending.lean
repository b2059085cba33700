import Unstack.Proofs.Outcome
import Unstack.Proofs.Recovery.Footprint

namespace Unstack

open Unstack.Expr

/-- A method without `this` and without debug names: every register is the variable made up from its number. -/
structure Setting.Unnamed (env : Setting) : Prop where
  isStatic : env.info.isStatic
  noLocals : env.info.locals = []

namespace Setting.Unnamed

variable {env : Setting} (unnamed : env.Unnamed) (reg pc : Nat)

include unnamed

theorem thisReg : env.info.thisReg = none := if_pos unnamed.isStatic

theorem localAt : env.info.localAt reg pc = none := by
  rw [MethodInfo.localAt, unnamed.noLocals, List.find?_nil]

theorem varName : env.varName reg pc = regName reg := by
  simp only [Setting.varName, unnamed.localAt, unnamed.thisReg]
  exact if_neg (by simp)

theorem regExpr : env.regExpr reg pc = .var (regName reg) := by
  simp only [Setting.regExpr, unnamed.varName, unnamed.thisReg]
  exact if_neg (by simp)

end Setting.Unnamed

theorem regName_ne_this (reg : Nat) : regName reg ≠ "this" := by
  intro same
  have chars := congrArg String.toList same
  rw [regName, String.toList_append] at chars
  exact absurd (List.cons.inj chars).1 (by decide)

namespace Scratch

def exprs (s : Scratch) : List Expr := s.stack.map StackValue.expr

def ids (s : Scratch) : List Nat := s.stack.map StackValue.id

end Scratch

/-- Values with their numbers: numbers are used up to `next`, and copies of a value have its number. -/
structure Numbered (next : Nat) (values : List (Nat × Word)) : Prop where
  lt : ∀ p ∈ values, p.1 < next
  copy : ∀ p ∈ values, ∀ q ∈ values, p.1 = q.1 → p.2 = q.2

namespace Numbered

variable {next : Nat} {values fewer : List (Nat × Word)}

theorem subset (numbered : Numbered next values) (sub : fewer ⊆ values) : Numbered next fewer where
  lt p member := numbered.lt p (sub member)
  copy p member q member' := numbered.copy p (sub member) q (sub member')

theorem push (numbered : Numbered next values) (v : Word) : Numbered (next + 1) ((next, v) :: values) where
  lt := by
    refine List.forall_mem_cons.mpr ⟨Nat.lt_succ_self next, fun p member => ?_⟩
    exact Nat.lt_succ_of_lt (numbered.lt p member)
  copy := by
    intro p member q member' same
    rcases List.mem_cons.mp member with rfl | old <;> rcases List.mem_cons.mp member' with rfl | old'
    · rfl
    · exact absurd same (Nat.ne_of_gt (numbered.lt q old'))
    · exact absurd same (Nat.ne_of_lt (numbered.lt p old))
    · exact numbered.copy p old q old' same

end Numbered

/-- From the variables `σ` on, the expressions on the stack stand for the stack of the machine, and evaluating them
leaves the registers as the machine has them. -/
structure Pending (σ : Store) (s : Scratch) (m : Machine) : Prop where
  evaluates : ∃ σ', evalStack s.exprs σ = some (m.stack, σ') ∧ σ'.regs = m.regs
  numbered : Numbered s.nextValue (s.ids.zip m.stack)

namespace Pending

variable {σ : Store} {s s' : Scratch} {m : Machine} {upper rest : List StackValue} {stmts stmts' : List Stmt}
  {next : Nat} {regs regs' : Nat → Word} {above below : List Word}

theorem length (pending : Pending σ s m) : m.stack.length = s.stack.length := by
  obtain ⟨_, run, _⟩ := pending.evaluates
  rw [length_of_evalStack run, Scratch.exprs, List.length_map]

theorem ids_zip (lengths : above.length = upper.length) :
    ((upper ++ rest).map StackValue.id).zip (above ++ below) =
      (upper.map StackValue.id).zip above ++ (rest.map StackValue.id).zip below := by
  rw [List.map_append, List.zip_append]
  rw [List.length_map, lengths]

theorem split (pending : Pending σ ⟨upper ++ rest, stmts, next⟩ ⟨above ++ below, regs⟩)
    (lengths : above.length = upper.length) :
    ∃ mid last, evalStack (rest.map StackValue.expr) σ = some (below, mid) ∧
      evalStack (upper.map StackValue.expr) mid = some (above, last) ∧ last.regs = regs ∧
      Numbered next ((rest.map StackValue.id).zip below) := by
  obtain ⟨last, run, final⟩ := pending.evaluates
  rw [Scratch.exprs, List.map_append, evalStack_append (by rw [lengths, List.length_map])] at run
  obtain ⟨mid, lower, run⟩ := run
  have numbered := pending.numbered
  rw [Scratch.ids, ids_zip lengths] at numbered
  exact ⟨mid, last, lower, run, final, numbered.subset (List.subset_append_right _ _)⟩

/-- The values on top are replaced by one that is made of them. -/
theorem fold {e : Expr} {v : Word} (pending : Pending σ ⟨upper ++ rest, stmts, next⟩ ⟨above ++ below, regs⟩)
    (lengths : above.length = upper.length)
    (whole : ∀ mid last, evalStack (upper.map StackValue.expr) mid = some (above, last) → last.regs = regs →
      ∃ last', e.eval mid = some (v, last') ∧ last'.regs = regs') :
    Pending σ ⟨⟨next, e⟩ :: rest, stmts, next + 1⟩ ⟨v :: below, regs'⟩ := by
  obtain ⟨mid, last, lower, run, final, numbered⟩ := pending.split lengths
  obtain ⟨last', top, final'⟩ := whole mid last run final
  exact ⟨⟨last', evalStack_cons.mpr ⟨mid, lower, top⟩, final'⟩, numbered.push v⟩

/-- Values that may come first are evaluated by statements. -/
theorem emit {es : List Expr} (pending : Pending σ ⟨upper ++ rest, stmts, next⟩ ⟨above ++ below, regs⟩)
    (lengths : above.length = upper.length) (mayPrecede : MayPrecede es (rest.map StackValue.expr))
    (whole : ∀ mid last, evalStack (upper.map StackValue.expr) mid = some (above, last) → last.regs = regs →
      ∃ values last', evalStack es mid = some (values, last') ∧ last'.regs = regs') :
    ∃ mid, Stmt.execAll (es.reverse.map Stmt.expr) σ = some mid ∧
      Pending mid ⟨rest, stmts', next⟩ ⟨below, regs'⟩ := by
  obtain ⟨mid, last, lower, run, final, numbered⟩ := pending.split lengths
  obtain ⟨values, last', run', final'⟩ := whole mid last run final
  obtain ⟨mid', first, second⟩ := mayPrecede.execAll lower run'
  exact ⟨mid', first, ⟨last', second, final'⟩, numbered⟩

theorem replaceTop {top : StackValue} {e : Expr} {v : Word}
    (pending : Pending σ ⟨top :: rest, stmts, next⟩ ⟨v :: below, regs⟩)
    (whole : ∀ mid last, top.expr.eval mid = some (v, last) → last.regs = regs →
      ∃ last', e.eval mid = some (v, last') ∧ last'.regs = regs') :
    Pending σ ⟨{ top with expr := e } :: rest, stmts, next⟩ ⟨v :: below, regs'⟩ where
  evaluates := by
    obtain ⟨last, run, final⟩ := pending.evaluates
    obtain ⟨mid, lower, run⟩ := evalStack_cons.mp run
    obtain ⟨last', top, final'⟩ := whole mid last run final
    exact ⟨last', evalStack_cons.mpr ⟨mid, lower, top⟩, final'⟩
  numbered := pending.numbered

variable {between : List StackValue} {middle : List Word}

theorem exchange (pending : Pending σ ⟨upper ++ (between ++ rest), stmts, next⟩ ⟨above ++ (middle ++ below), regs⟩)
    (lengths : above.length = upper.length) (lengths' : middle.length = between.length)
    (independent : Independent (upper.map StackValue.expr) (between.map StackValue.expr)) :
    Pending σ ⟨between ++ (upper ++ rest), stmts, next⟩ ⟨middle ++ (above ++ below), regs⟩ where
  evaluates := by
    obtain ⟨last, run, final⟩ := pending.evaluates
    refine ⟨last, ?_, final⟩
    simp only [Scratch.exprs, List.map_append] at run ⊢
    exact independent.evalStack_exchange (by rw [lengths, List.length_map]) (by rw [lengths', List.length_map]) run
  numbered := by
    refine pending.numbered.subset ?_
    simp only [Scratch.ids, ids_zip lengths, ids_zip lengths']
    intro p member
    simp only [List.mem_append] at member ⊢
    tauto

/-- A copied value is evaluated twice to the same result. -/
theorem copy (pending : Pending σ ⟨upper ++ (between ++ rest), stmts, next⟩ ⟨above ++ (middle ++ below), regs⟩)
    (lengths : above.length = upper.length) (lengths' : middle.length = between.length)
    (repeatable : Repeatable (upper.map StackValue.expr))
    (independent : Independent (upper.map StackValue.expr) (between.map StackValue.expr)) :
    Pending σ ⟨upper ++ (between ++ (upper ++ rest)), stmts, next⟩
      ⟨above ++ (middle ++ (above ++ below)), regs⟩ where
  evaluates := by
    obtain ⟨last, run, final⟩ := pending.evaluates
    refine ⟨last, ?_, final⟩
    simp only [Scratch.exprs, List.map_append] at run ⊢
    exact independent.evalStack_copy (by rw [lengths, List.length_map]) (by rw [lengths', List.length_map])
      repeatable run
  numbered := by
    refine pending.numbered.subset ?_
    simp only [Scratch.ids, ids_zip lengths, ids_zip lengths']
    intro p member
    simp only [List.mem_append] at member ⊢
    tauto

end Pending

end Unstack
