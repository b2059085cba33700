import Unstack.Proofs.Recovery.Meaning

namespace Unstack

/-- What a computation reads and what it writes. It changes no other variable, and where it finds the same values
in the variables that it reads, it gives the same result and writes the same values. -/
structure Touches {α : Type} (f : Store → Option (α × Store)) (reads writes : List String) : Prop where
  frame {σ σ' : Store} {a : α} : f σ = some (a, σ') → ∀ x, x ∉ writes → σ' x = σ x
  agree {σ σ' τ : Store} {a : α} : f σ = some (a, σ') → (∀ x ∈ reads, τ x = σ x) →
    ∃ τ', f τ = some (a, τ') ∧ ∀ x ∈ writes, τ' x = σ' x

namespace Touches

variable {α β : Type} {f : Store → Option (α × Store)} {g : Store → Option (β × Store)}
  {reads writes reads' writes' : List String}

theorem pure (a : α) : Touches (fun σ => some (a, σ)) [] [] where
  frame run x _ := by
    cases run
    rfl
  agree run _ := by
    cases run
    exact ⟨_, rfl, by simp⟩

theorem read (x : String) : Touches (fun σ => some (σ x, σ)) [x] [] where
  frame run y _ := by
    cases run
    rfl
  agree run same := by
    cases run
    exact ⟨_, by rw [same x (.head _)], by simp⟩

theorem write (a : α) (x : String) (v : Word) : Touches (fun σ => some (a, Function.update σ x v)) [] [x] where
  frame run y other := by
    cases run
    exact Function.update_of_ne (fun same => other (List.mem_singleton.mpr same)) ..
  agree run _ := by
    cases run
    refine ⟨_, rfl, fun y member => ?_⟩
    rw [List.mem_singleton.mp member, Function.update_self, Function.update_self]

/-- A sequence reads and writes what its parts do. -/
theorem seq {next : α → Store → Option (β × Store)} (first : Touches f reads writes)
    (second : ∀ a, Touches (next a) reads' writes') :
    Touches (fun σ => (f σ).bind fun p => next p.1 p.2) (reads ++ reads') (writes ++ writes') where
  frame run x outside := by
    obtain ⟨⟨a, mid⟩, run₁, run₂⟩ := Option.bind_eq_some_iff.mp run
    dsimp only at run₂
    rw [List.mem_append, not_or] at outside
    rw [(second a).frame run₂ x outside.2, first.frame run₁ x outside.1]
  agree run same := by
    obtain ⟨⟨a, mid⟩, run₁, run₂⟩ := Option.bind_eq_some_iff.mp run
    dsimp only at run₂
    obtain ⟨mid', run₁', written⟩ := first.agree run₁ fun x member => same x (List.mem_append_left _ member)
    -- behind the first part both runs still agree on what the second part reads
    obtain ⟨end', run₂', written'⟩ := (second a).agree run₂ fun x member => by
      by_cases inFirst : x ∈ writes
      · exact written x inFirst
      · rw [first.frame run₁' x inFirst, first.frame run₁ x inFirst]
        exact same x (List.mem_append_right _ member)
    refine ⟨end', Option.bind_eq_some_iff.mpr ⟨_, run₁', run₂'⟩, fun x member => ?_⟩
    by_cases inSecond : x ∈ writes'
    · exact written' x inSecond
    · rw [(second a).frame run₂' x inSecond, (second a).frame run₂ x inSecond]
      exact written x ((List.mem_append.mp member).resolve_right inSecond)

theorem congr (touches : Touches f reads writes) (sameReads : ∀ x, x ∈ reads' ↔ x ∈ reads)
    (sameWrites : ∀ x, x ∈ writes' ↔ x ∈ writes) : Touches f reads' writes' where
  frame run x outside := touches.frame run x (mt (sameWrites x).mpr outside)
  agree run same := by
    obtain ⟨τ', run', written⟩ := touches.agree run fun x member => same x ((sameReads x).mpr member)
    exact ⟨τ', run', fun x member => written x ((sameWrites x).mp member)⟩

/-- Two computations of which none writes what the other touches can be done in either order. -/
theorem comm (first : Touches f reads writes) (second : Touches g reads' writes')
    (apart : ∀ x ∈ writes, x ∉ reads' ∧ x ∉ writes') (apart' : ∀ x ∈ writes', x ∉ reads) {σ mid σ' : Store} {a : α} {b : β}
    (run₁ : f σ = some (a, mid)) (run₂ : g mid = some (b, σ')) :
    ∃ mid', g σ = some (b, mid') ∧ f mid' = some (a, σ') := by
  obtain ⟨mid', run₂', written'⟩ := second.agree run₂ fun x member =>
    (first.frame run₁ x fun inFirst => (apart x inFirst).1 member).symm
  obtain ⟨end', run₁', written⟩ := first.agree run₁ fun x member =>
    second.frame run₂' x fun inSecond => apart' x inSecond member
  refine ⟨mid', run₂', ?_⟩
  have same : end' = σ' := by
    funext x
    by_cases inFirst : x ∈ writes
    · rw [written x inFirst, second.frame run₂ x (apart x inFirst).2]
    · rw [first.frame run₁' x inFirst]
      by_cases inSecond : x ∈ writes'
      · exact written' x inSecond
      · rw [second.frame run₂' x inSecond, second.frame run₂ x inSecond, first.frame run₁ x inFirst]
  rw [← same]
  exact run₁'

/-- A computation that writes nothing it reads changes nothing when it is done again. -/
theorem again (touches : Touches f reads writes) (apart : ∀ x ∈ writes, x ∉ reads) {σ σ' : Store} {a : α}
    (run : f σ = some (a, σ')) : f σ' = some (a, σ') := by
  obtain ⟨end', run', written⟩ := touches.agree run fun x member =>
    touches.frame run x fun inWrites => apart x inWrites member
  have same : end' = σ' := by
    funext x
    by_cases inWrites : x ∈ writes
    · exact written x inWrites
    · exact touches.frame run' x inWrites
  rwa [same] at run'

end Touches

namespace Expr

variable {e : Expr} {f : Word → Word → Word}

def reads : Expr → List String
  | var x => [x]
  | binary _ lhs rhs => lhs.reads ++ rhs.reads
  | unary _ e | post _ e => e.reads
  | assign _ none e => e.reads
  | assign target (some _) e => target.reads ++ e.reads
  | _ => []

def writes : Expr → List String
  | binary _ lhs rhs => lhs.writes ++ rhs.writes
  | unary .preInc (var x) | unary .preDec (var x) | post _ (var x) => [x]
  | unary _ e => e.writes
  | assign (var x) _ e => e.writes ++ [x]
  | _ => []

/-- The expressions that have a value of type `int`. -/
inductive OnInts : Expr → Prop where
  | int (v : Int) : OnInts (int v)
  | var (x : String) : OnInts (var x)
  | binary {op : BinOp} {f : Word → Word → Word} {lhs rhs : Expr} : op.onWords? = some f → OnInts lhs → OnInts rhs →
    OnInts (binary op lhs rhs)
  | neg {e : Expr} : OnInts e → OnInts (unary .neg e)
  | bitNot {e : Expr} : OnInts e → OnInts (unary .bitNot e)
  | preInc (x : String) : OnInts (unary .preInc (Expr.var x))
  | preDec (x : String) : OnInts (unary .preDec (Expr.var x))
  | postInc (x : String) : OnInts (post .inc (Expr.var x))
  | postDec (x : String) : OnInts (post .dec (Expr.var x))
  | assign (x : String) {e : Expr} : OnInts e → OnInts (assign (Expr.var x) none e)
  | update (x : String) {op : BinOp} {f : Word → Word → Word} {e : Expr} : op.onWords? = some f → OnInts e →
    OnInts (Expr.assign (Expr.var x) (some op) e)

theorem onInts_of_eval {σ : Store} {result : Word × Store} (run : e.eval σ = some result) : e.OnInts := by
  fun_induction Expr.eval e σ generalizing result with
  | case1 v => exact .int v
  | case2 x => exact .var x
  | case3 op lhs rhs σ ihLhs ihRhs =>
    obtain ⟨f, operator, run⟩ := Option.bind_eq_some_iff.mp run
    obtain ⟨left, runLhs, run⟩ := Option.bind_eq_some_iff.mp run
    obtain ⟨right, runRhs, _⟩ := Option.bind_eq_some_iff.mp run
    exact .binary operator (ihLhs runLhs) (ihRhs _ runRhs)
  | case4 e σ ih =>
    obtain ⟨_, run, _⟩ := Option.bind_eq_some_iff.mp run
    exact .neg (ih run)
  | case5 e σ ih =>
    obtain ⟨_, run, _⟩ := Option.bind_eq_some_iff.mp run
    exact .bitNot (ih run)
  | case6 x => exact .preInc x
  | case7 x => exact .preDec x
  | case8 x => exact .postInc x
  | case9 x => exact .postDec x
  | case10 x e σ ih =>
    obtain ⟨_, run, _⟩ := Option.bind_eq_some_iff.mp run
    exact .assign x (ih run)
  | case11 x op e σ ih =>
    obtain ⟨f, operator, run⟩ := Option.bind_eq_some_iff.mp run
    obtain ⟨_, run, _⟩ := Option.bind_eq_some_iff.mp run
    exact .update x operator (ih run)
  | case12 => cases run

theorem OnInts.eval_binary {op : BinOp} (operator : op.onWords? = some f) (lhs rhs : Expr) :
    (Expr.binary op lhs rhs).eval = fun σ => (lhs.eval σ).bind fun p =>
      (rhs.eval p.2).bind fun q => some (f p.1 q.1, q.2) := by
  funext σ
  simp only [Expr.eval, operator]
  rfl

theorem OnInts.eval_update {op : BinOp} (operator : op.onWords? = some f) (x : String) (e : Expr) :
    (Expr.assign (Expr.var x) (some op) e).eval = fun σ => (e.eval σ).bind fun p =>
      some (f (σ x) p.1, Function.update p.2 x (f (σ x) p.1)) := by
  funext σ
  simp only [Expr.eval, operator]
  rfl

/-- Whether there is a value does not depend on the variables. -/
theorem OnInts.total (onInts : e.OnInts) (σ : Store) : ∃ v σ', e.eval σ = some (v, σ') := by
  induction onInts generalizing σ with
  | int | var | preInc | preDec | postInc | postDec => exact ⟨_, _, rfl⟩
  | @binary _ _ lhs rhs operator _ _ ihLhs ihRhs =>
    obtain ⟨a, mid, runLhs⟩ := ihLhs σ
    obtain ⟨b, σ', runRhs⟩ := ihRhs mid
    exact ⟨_, _, by simp only [OnInts.eval_binary operator, runLhs, runRhs, Option.bind_some]; rfl⟩
  | neg _ ih | bitNot _ ih | assign _ _ ih =>
    obtain ⟨a, mid, run⟩ := ih σ
    exact ⟨_, _, by simp only [Expr.eval, run]; rfl⟩
  | update x operator _ ih =>
    obtain ⟨a, mid, run⟩ := ih σ
    exact ⟨_, _, by simp only [OnInts.eval_update operator, run, Option.bind_some]; rfl⟩

/-- By induction on the expression. -/
theorem OnInts.touches (onInts : e.OnInts) : Touches e.eval e.reads e.writes := by
  induction onInts with
  | int v => exact .pure _
  | var x => exact .read x
  | preInc x => exact (Touches.read x).seq fun a => .write (a + 1) x (a + 1)
  | preDec x => exact (Touches.read x).seq fun a => .write (a - 1) x (a - 1)
  | postInc x => exact (Touches.read x).seq fun a => .write a x (a + 1)
  | postDec x => exact (Touches.read x).seq fun a => .write a x (a - 1)
  | @binary _ f lhs rhs operator _ _ ihLhs ihRhs =>
    rw [OnInts.eval_binary operator, reads, writes]
    have both := ihLhs.seq fun a => ihRhs.seq fun b => .pure (f a b)
    rwa [List.append_nil, List.append_nil] at both
  | neg _ ih =>
    have whole := ih.seq fun a => .pure (-a)
    rwa [List.append_nil, List.append_nil] at whole
  | bitNot _ ih =>
    have whole := ih.seq fun a => .pure (~~~a)
    rwa [List.append_nil, List.append_nil] at whole
  | assign x _ ih =>
    have whole := ih.seq fun a => .write a x a
    rwa [List.append_nil] at whole
  | @update x _ f e operator _ ih =>
    rw [OnInts.eval_update operator, reads, writes]
    have whole := (Touches.read x).seq fun old => ih.seq fun b => .write (f old b) x (f old b)
    rwa [List.append_nil] at whole

section Stack

variable {es xs ys : List Expr} {σ mid σ' : Store} {values lower upper : List Word}

theorem evalStack_cons {v : Word} : evalStack (e :: es) σ = some (v :: values, σ') ↔
    ∃ mid, evalStack es σ = some (values, mid) ∧ e.eval mid = some (v, σ') := by
  constructor
  · intro run
    obtain ⟨⟨_, mid⟩, below, run⟩ := Option.bind_eq_some_iff.mp run
    obtain ⟨⟨_, _⟩, top, same⟩ := Option.bind_eq_some_iff.mp run
    cases same
    exact ⟨mid, below, top⟩
  · rintro ⟨mid, below, top⟩
    exact Option.bind_eq_some_iff.mpr ⟨_, below, Option.bind_eq_some_iff.mpr ⟨_, top, rfl⟩⟩

theorem exists_cons_of_evalStack (run : evalStack (e :: es) σ = some (values, σ')) :
    ∃ v below, values = v :: below := by
  obtain ⟨⟨below, _⟩, _, run⟩ := Option.bind_eq_some_iff.mp run
  obtain ⟨⟨v, _⟩, _, same⟩ := Option.bind_eq_some_iff.mp run
  cases same
  exact ⟨v, below, rfl⟩

theorem onInts_of_evalStack (run : evalStack es σ = some (values, σ')) : ∀ e ∈ es, e.OnInts := by
  induction es generalizing values σ' with
  | nil => simp
  | cons e rest ih =>
    obtain ⟨v, below, rfl⟩ := exists_cons_of_evalStack run
    obtain ⟨mid, below, top⟩ := evalStack_cons.mp run
    exact List.forall_mem_cons.mpr ⟨onInts_of_eval top, ih below⟩

theorem length_of_evalStack (run : evalStack es σ = some (values, σ')) : values.length = es.length := by
  induction es generalizing values σ' with
  | nil =>
    cases run
    rfl
  | cons e rest ih =>
    obtain ⟨v, below, rfl⟩ := exists_cons_of_evalStack run
    obtain ⟨mid, below, _⟩ := evalStack_cons.mp run
    rw [List.length_cons, List.length_cons, ih below]

theorem evalStack_append (lengths : upper.length = xs.length) :
    evalStack (xs ++ ys) σ = some (upper ++ lower, σ') ↔
      ∃ mid, evalStack ys σ = some (lower, mid) ∧ evalStack xs mid = some (upper, σ') := by
  induction xs generalizing upper σ' with
  | nil =>
    cases List.length_eq_zero_iff.mp lengths
    simp [evalStack]
  | cons e rest ih =>
    obtain ⟨v, above, rfl⟩ := List.exists_cons_of_length_eq_add_one lengths
    have shorter : above.length = rest.length := by simpa using lengths
    simp only [List.cons_append, evalStack_cons, ih shorter]
    constructor
    · rintro ⟨last, ⟨mid, below, above⟩, top⟩
      exact ⟨mid, below, last, above, top⟩
    · rintro ⟨mid, below, last, above, top⟩
      exact ⟨last, ⟨mid, below, above⟩, top⟩

theorem evalStack_total (onInts : ∀ e ∈ es, e.OnInts) (σ : Store) :
    ∃ values σ', evalStack es σ = some (values, σ') := by
  induction es with
  | nil => exact ⟨[], σ, rfl⟩
  | cons e rest ih =>
    obtain ⟨values, mid, below⟩ := ih fun e member => onInts e (.tail _ member)
    obtain ⟨v, σ', top⟩ := (onInts e (.head _)).total mid
    exact ⟨v :: values, σ', evalStack_cons.mpr ⟨mid, below, top⟩⟩

theorem touches_evalStack (onInts : ∀ e ∈ es, e.OnInts) :
    Touches (evalStack es) (es.flatMap reads) (es.flatMap writes) := by
  induction es with
  | nil => exact .pure []
  | cons e rest ih =>
    have below := ih fun e member => onInts e (.tail _ member)
    have top := (onInts e (.head _)).touches
    have whole := below.seq fun values => top.seq fun v => .pure (v :: values)
    refine whole.congr (fun x => ?_) fun x => ?_
    · rw [List.flatMap_cons, List.append_nil, List.mem_append, List.mem_append, or_comm]
    · rw [List.flatMap_cons, List.append_nil, List.mem_append, List.mem_append, or_comm]

/-- No expression of one list writes what one of the other list touches. -/
def Independent (xs ys : List Expr) : Prop :=
  (∀ x ∈ xs.flatMap writes, x ∉ ys.flatMap reads ∧ x ∉ ys.flatMap writes) ∧
    ∀ x ∈ ys.flatMap writes, x ∉ xs.flatMap reads

instance (xs ys : List Expr) : Decidable (Independent xs ys) := instDecidableAnd

/-- Nothing that the expressions write is read by them. -/
def Repeatable (es : List Expr) : Prop := ∀ x ∈ es.flatMap writes, x ∉ es.flatMap reads

instance (es : List Expr) : Decidable (Repeatable es) := List.decidableBAll (· ∉ es.flatMap reads) (es.flatMap writes)

theorem evalStack_pure (pure : es.flatMap writes = []) (run : evalStack es σ = some (values, σ')) : σ' = σ := by
  funext x
  refine (touches_evalStack (onInts_of_evalStack run)).frame run x ?_
  rw [pure]
  exact List.not_mem_nil

/-- Expressions that write nothing the others use can change places. -/
theorem Independent.evalStack_comm (independent : Independent xs ys) (run : evalStack ys σ = some (lower, mid))
    (run' : evalStack xs mid = some (upper, σ')) :
    ∃ mid', evalStack xs σ = some (upper, mid') ∧ evalStack ys mid' = some (lower, σ') := by
  refine (touches_evalStack (onInts_of_evalStack run)).comm (touches_evalStack (onInts_of_evalStack run'))
    (fun x member => ⟨independent.2 x member, fun written => (independent.1 x written).2 member⟩)
    (fun x member => (independent.1 x member).1) run run'

theorem Repeatable.evalStack_again (repeatable : Repeatable xs) (run : evalStack xs σ = some (values, σ')) :
    evalStack xs σ' = some (values, σ') :=
  (touches_evalStack (onInts_of_evalStack run)).again repeatable run

section Parts

variable {zs : List Expr} {middle : List Word} (lengths : upper.length = xs.length)
  (lengths' : middle.length = ys.length)

include lengths lengths'

theorem Independent.evalStack_exchange (independent : Independent xs ys)
    (run : evalStack (xs ++ (ys ++ zs)) σ = some (upper ++ (middle ++ lower), σ')) :
    evalStack (ys ++ (xs ++ zs)) σ = some (middle ++ (upper ++ lower), σ') := by
  obtain ⟨second, run, top⟩ := (evalStack_append lengths).mp run
  obtain ⟨first, bottom, between⟩ := (evalStack_append lengths').mp run
  obtain ⟨second', top', between'⟩ := independent.evalStack_comm between top
  exact (evalStack_append lengths').mpr ⟨second', (evalStack_append lengths).mpr ⟨first, bottom, top'⟩, between'⟩

theorem Independent.evalStack_copy (independent : Independent xs ys) (repeatable : Repeatable xs)
    (run : evalStack (xs ++ (ys ++ zs)) σ = some (upper ++ (middle ++ lower), σ')) :
    evalStack (xs ++ (ys ++ (xs ++ zs))) σ = some (upper ++ (middle ++ (upper ++ lower)), σ') := by
  -- evaluated first in place of last, the lower copy leaves the upper one nothing to change
  have exchanged := independent.evalStack_exchange lengths lengths' run
  obtain ⟨_, _, top⟩ := (evalStack_append lengths).mp run
  exact (evalStack_append lengths).mpr ⟨σ', exchanged, repeatable.evalStack_again top⟩

end Parts

theorem execAll_of_evalStack (run : evalStack es σ = some (values, σ')) :
    Stmt.execAll (es.reverse.map Stmt.expr) σ = some σ' := by
  induction es generalizing values σ' with
  | nil =>
    cases run
    rfl
  | cons e rest ih =>
    obtain ⟨v, below, rfl⟩ := exists_cons_of_evalStack run
    obtain ⟨mid, below, top⟩ := evalStack_cons.mp run
    have first := ih below
    unfold Stmt.execAll at first ⊢
    rw [List.reverse_cons, List.map_append, List.foldlM_append, first]
    simp [Stmt.exec, top]

/-- Expressions whose values are not used can be evaluated ahead of others. -/
def MayPrecede (xs ys : List Expr) : Prop := xs.flatMap writes = [] ∨ Independent xs ys

instance (xs ys : List Expr) : Decidable (MayPrecede xs ys) := instDecidableOr

theorem MayPrecede.execAll (mayPrecede : MayPrecede xs ys) (run : evalStack ys σ = some (lower, mid))
    (run' : evalStack xs mid = some (upper, σ')) :
    ∃ mid', Stmt.execAll (xs.reverse.map Stmt.expr) σ = some mid' ∧ evalStack ys mid' = some (lower, σ') := by
  rcases mayPrecede with pure | independent
  · obtain ⟨values, mid', first⟩ := evalStack_total (onInts_of_evalStack run') σ
    have same := evalStack_pure pure first
    have same' := evalStack_pure pure run'
    subst same same'
    exact ⟨_, execAll_of_evalStack first, run⟩
  · obtain ⟨mid', first, second⟩ := independent.evalStack_comm run run'
    exact ⟨mid', execAll_of_evalStack first, second⟩

end Stack

end Expr

end Unstack
