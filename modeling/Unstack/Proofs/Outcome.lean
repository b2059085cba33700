import Mathlib.Data.List.Forall2
import Unstack.Graph.Build

theorem Eq.some_unique {α : Type} {x : Option α} {a b : α} (first : x = some a) (second : x = some b) : a = b :=
  Option.some.inj (first.symm.trans second)

theorem Eq.ok_unique {ε α : Type} {x : Except ε α} {a b : α} (first : x = .ok a) (second : x = .ok b) : a = b :=
  Except.ok.inj (first.symm.trans second)

theorem Eq.lt_size {α : Type} {a : Array α} {i : Nat} {x : α} (found : a[i]? = some x) : i < a.size :=
  (Array.getElem?_eq_some_iff.mp found).1

theorem Eq.lt_length {α : Type} {l : List α} {i : Nat} {x : α} (found : l[i]? = some x) : i < l.length :=
  (List.getElem?_eq_some_iff.mp found).1

namespace Unstack

variable {ε α β : Type}

theorem forall_mem_snoc {holds : α → Prop} {items : List α} {last : α} (all : ∀ item ∈ items, holds item)
    (atLast : holds last) : ∀ item ∈ items ++ [last], holds item :=
  List.forall_mem_append.mpr ⟨all, List.forall_mem_singleton.mpr atLast⟩

@[simp] theorem ok_bind (a : α) (next : α → Except ε β) :
    (Except.ok a >>= next) = next a := rfl

/-- A sequence succeeds exactly if its first part does and the second one does on its result. -/
theorem bind_eq_ok {x : Except ε α} {next : α → Except ε β} {b : β} :
    (x >>= next) = .ok b ↔ ∃ a, x = .ok a ∧ next a = .ok b := by
  cases x with
  | error e => simp [bind, Except.bind]
  | ok a => simp

theorem of_any_toOption {x : Except ε α} {p : α → Bool} (holds : x.toOption.any p = true) :
    ∃ a, x = .ok a ∧ p a = true := by
  cases x with
  | error _ => cases holds
  | ok a => exact ⟨a, rfl, holds⟩

/-- A search that meets no fault, whether or not it finds something; what it finds is good. -/
def Gives (search : Except ε (Option α)) (good : α → Prop) : Prop := ∃ r, search = .ok r ∧ ∀ a, r = some a → good a

namespace Gives

variable {search : Except ε (Option α)} {good other : α → Prop} {a : α}

theorem nothing (good : α → Prop) : Gives (.ok none : Except ε (Option α)) good :=
  ⟨none, rfl, fun _ same => by cases same⟩

theorem found (run : search = .ok (some a)) (holds : good a) : Gives search good :=
  ⟨some a, run, fun _ same => Option.some.inj same ▸ holds⟩

/-- What a search has found is good. -/
theorem of_run (gives : Gives search good) (run : search = .ok (some a)) : good a := by
  obtain ⟨r, run', holds⟩ := gives
  exact holds a (run'.ok_unique run)

theorem imp (gives : Gives search good) (weaken : ∀ a, good a → other a) : Gives search other := by
  obtain ⟨r, run, holds⟩ := gives
  exact ⟨r, run, fun a same => weaken a (holds a same)⟩

end Gives

/-- A fold succeeds if each of its steps does; `holds` speaks of the items that are still to come. -/
theorem foldlM_total (holds : List α → β → Prop) (step : β → α → Except ε β) (items : List α)
    (first : β) (initial : holds items first)
    (next : ∀ item rest b, holds (item :: rest) b → ∃ b', step b item = .ok b' ∧ holds rest b') :
    ∃ last, items.foldlM step first = .ok last ∧ holds [] last := by
  induction items generalizing first with
  | nil => exact ⟨first, rfl, initial⟩
  | cons item rest ih =>
    obtain ⟨b, run, kept⟩ := next item rest first initial
    obtain ⟨last, runs, final⟩ := ih b kept
    exact ⟨last, by rw [List.foldlM_cons, run, ok_bind, runs], final⟩

/-- What every step of a fold keeps holds at its end. -/
theorem foldlM_keeps {step : β → α → Except ε β} {holds : β → Prop} {items : List α} {first last : β}
    (run : items.foldlM step first = .ok last) (initial : holds first)
    (next : ∀ b item b', holds b → step b item = .ok b' → holds b') : holds last := by
  induction items generalizing first with
  | nil =>
    cases run
    exact initial
  | cons item rest ih =>
    rw [List.foldlM_cons] at run
    obtain ⟨b, one, others⟩ := bind_eq_ok.mp run
    exact ih others (next first item b initial one)

/-- The results of a map stand beside its items. -/
theorem mapM_eq_ok {f : α → Except ε β} {xs : List α} {ys : List β} :
    xs.mapM f = .ok ys ↔ List.Forall₂ (fun x y => f x = .ok y) xs ys := by
  induction xs generalizing ys with
  | nil => cases ys <;> simp [pure, Except.pure]
  | cons x rest ih =>
    rw [List.mapM_cons, List.forall₂_cons_left_iff]
    cases first : f x with
    | error e => simp [bind, Except.bind]
    | ok y =>
      simp only [ok_bind, Except.ok.injEq]
      cases others : rest.mapM f with
      | error e => simp [bind, Except.bind, ← ih, others]
      | ok more => simp [← ih, others, pure, Except.pure, eq_comm]

/-- Every item has a result and every result comes from an item. -/
theorem mapM_mem {f : α → Except ε β} {xs : List α} {ys : List β} (run : xs.mapM f = .ok ys) :
    (∀ x ∈ xs, ∃ y ∈ ys, f x = .ok y) ∧ ∀ y ∈ ys, ∃ x ∈ xs, f x = .ok y := by
  induction mapM_eq_ok.mp run with
  | nil => exact ⟨nofun, nofun⟩
  | cons first others ih =>
    have rest := ih (mapM_eq_ok.mpr others)
    constructor
    · intro x member
      rcases List.mem_cons.mp member with rfl | later
      · exact ⟨_, .head _, first⟩
      · obtain ⟨y, found, result⟩ := rest.1 x later
        exact ⟨y, .tail _ found, result⟩
    · intro y member
      rcases List.mem_cons.mp member with rfl | later
      · exact ⟨_, .head _, first⟩
      · obtain ⟨x, found, result⟩ := rest.2 y later
        exact ⟨x, .tail _ found, result⟩

theorem mapM_total {f : α → Except ε β} {xs : List α} (each : ∀ x ∈ xs, ∃ y, f x = .ok y) :
    ∃ ys, xs.mapM f = .ok ys := by
  induction xs with
  | nil => exact ⟨[], rfl⟩
  | cons x rest ih =>
    obtain ⟨y, first⟩ := each x (.head _)
    obtain ⟨ys, others⟩ := ih fun x' member => each x' (.tail x member)
    exact ⟨y :: ys, by rw [List.mapM_cons, first, ok_bind, others]; rfl⟩

/-- A filter whose tests all give an answer keeps the items that pass. -/
theorem filterM_total {test : α → Except ε Bool} {xs : List α} (each : ∀ x ∈ xs, ∃ r, test x = .ok r) :
    ∃ ys, xs.filterM test = .ok ys ∧ ∀ x, x ∈ ys ↔ x ∈ xs ∧ test x = .ok true := by
  have kept (xs acc : List α) (each : ∀ x ∈ xs, ∃ r, test x = .ok r) :
      ∃ ys, xs.filterAuxM test acc = .ok ys ∧ ∀ x, x ∈ ys ↔ x ∈ acc ∨ x ∈ xs ∧ test x = .ok true := by
    induction xs generalizing acc with
    | nil => exact ⟨acc, rfl, by simp⟩
    | cons x rest ih =>
      obtain ⟨r, passed⟩ := each x (.head _)
      obtain ⟨ys, run, members⟩ := ih (cond r (x :: acc) acc) fun x' member => each x' (.tail x member)
      refine ⟨ys, by rw [List.filterAuxM, passed, ok_bind, run], fun y => ?_⟩
      rw [members, List.mem_cons]
      cases r with
      | true =>
        rw [cond_true, List.mem_cons]
        constructor
        · intro either
          rcases either with (rfl | old) | later
          · exact .inr ⟨.inl rfl, passed⟩
          · exact .inl old
          · exact .inr ⟨.inr later.1, later.2⟩
        · intro either
          rcases either with old | ⟨rfl | later, holds⟩
          · exact .inl (.inr old)
          · exact .inl (.inl rfl)
          · exact .inr ⟨later, holds⟩
      | false =>
        rw [cond_false]
        refine or_congr_right (and_congr_left fun holds => (or_iff_right fun same => ?_).symm)
        rw [same, passed] at holds
        cases holds
  obtain ⟨ys, run, members⟩ := kept xs [] each
  exact ⟨ys.reverse, by rw [List.filterM, run]; rfl, fun x => by simp [members]⟩

/-- Items beside what is found for them. -/
theorem mapM_beside {f : α → Except ε β} {xs : List α} {ps : List (α × β)} :
    (xs.mapM fun x => do return (x, ← f x) : Except ε (List (α × β))) = .ok ps ↔
      ps.map Prod.fst = xs ∧ ∀ p ∈ ps, f p.1 = .ok p.2 := by
  have single (x : α) (p : α × β) : (do return (x, ← f x) : Except ε (α × β)) = .ok p ↔ p.1 = x ∧ f p.1 = .ok p.2 := by
    obtain ⟨x', y⟩ := p
    cases found : f x with
    | error e =>
      simp only [bind, Except.bind, reduceCtorEq, false_iff, not_and]
      rintro rfl
      simp [found]
    | ok y' =>
      simp only [ok_bind, pure, Except.pure, Except.ok.injEq, Prod.mk.injEq]
      constructor
      · rintro ⟨rfl, rfl⟩
        exact ⟨rfl, found⟩
      · rintro ⟨rfl, same⟩
        exact ⟨rfl, found.ok_unique same⟩
  simp only [mapM_eq_ok, single]
  induction xs generalizing ps with
  | nil => cases ps <;> simp
  | cons x rest ih => cases ps <;> simp [ih, and_assoc, and_left_comm]

/-- A step of the construction meets no name that stands for nothing, and what it gives, if it gives
anything, is as demanded. -/
def Building.Yields (x : Building α) (good : α → Prop) : Prop :=
  ∃ outcome, x.run = .ok outcome ∧ ∀ a, outcome = .ok a → good a

namespace Building

variable {good : α → Prop} {better : β → Prop}

theorem Yields.of_run {x : Building α} {a : α} (yields : x.Yields good) (run : x.run = .ok (.ok a)) : good a := by
  obtain ⟨outcome, ran, holds⟩ := yields
  rw [ran] at run
  exact holds a (Except.ok.inj run)

/-- What a step of the construction gives, if it gives anything. -/
def result? (x : Building α) : Option α :=
  match x.run with
  | .ok (.ok a) => some a
  | _ => none

/-- A construction that gives a result has met neither a fault nor an error. -/
theorem run_of_result {x : Building α} (given : x.result?.isSome) : ∃ a, x.run = .ok (.ok a) := by
  unfold result? at given
  split at given
  · exact ⟨_, ‹_›⟩
  · cases given

theorem Yields.pure {a : α} (holds : good a) : Yields (Pure.pure a : Building α) good :=
  ⟨.ok a, rfl, fun _ same => Except.ok.inj same ▸ holds⟩

theorem Yields.throw (e : AnalysisError) : Yields (MonadExcept.throw e : Building α) good :=
  ⟨.error e, rfl, fun _ same => nomatch same⟩

/-- What the first part yields is what the second one may rely on. -/
theorem Yields.bind {x : Building α} {next : α → Building β} (yields : x.Yields good)
    (follows : ∀ a, good a → (next a).Yields better) : (x >>= next).Yields better := by
  obtain ⟨outcome, ran, holds⟩ := yields
  cases outcome with
  | error e =>
    refine ⟨.error e, ?_, fun _ same => nomatch same⟩
    change (x.run >>= _) = _
    rw [ran]
    rfl
  | ok a =>
    obtain ⟨outcome', ran', holds'⟩ := follows a (holds a rfl)
    refine ⟨outcome', ?_, holds'⟩
    change (x.run >>= _) = _
    rw [ran]
    exact ran'

theorem Yields.lift {x : Checked α} {a : α} (run : x = .ok a) (holds : good a) :
    Yields (liftM x : Building α) good := by
  subst run
  exact ⟨.ok a, rfl, fun _ same => Except.ok.inj same ▸ holds⟩

theorem Yields.mono {x : Building α} {weaker : α → Prop} (yields : x.Yields good)
    (weaken : ∀ a, good a → weaker a) : x.Yields weaker := by
  obtain ⟨outcome, ran, holds⟩ := yields
  exact ⟨outcome, ran, fun a same => weaken a (holds a same)⟩

/-- A fold of steps keeps what each step keeps; `holds` speaks of the items that are still to come. -/
theorem Yields.foldlM (holds : List α → β → Prop) {step : β → α → Building β} (items : List α) (first : β)
    (initial : holds items first)
    (next : ∀ item rest b, holds (item :: rest) b → (step b item).Yields (holds rest)) :
    (items.foldlM step first).Yields (holds []) := by
  induction items generalizing first with
  | nil => exact .pure initial
  | cons item rest ih =>
    rw [List.foldlM_cons]
    exact (next item rest first initial).bind fun b kept => ih b kept

end Building

/-- A step that works on a state, which a failure leaves as it is then. -/
abbrev Stateful (σ α : Type) := ExceptT AnalysisError (StateT σ (Except Fault)) α

/-- Begun in the state `s`, a step meets no name that stands for nothing, and if it gives anything, that and the
state it leaves are as demanded. -/
def Safe {σ : Type} (x : Stateful σ α) (s : σ) (good : α → σ → Prop) : Prop :=
  ∃ outcome s', x.run.run s = .ok (outcome, s') ∧ ∀ a, outcome = .ok a → good a s'

namespace Safe

variable {σ : Type} {s : σ} {x : Stateful σ α} {next : α → Stateful σ β} {good : α → σ → Prop} {better : β → σ → Prop}

theorem pure {a : α} (holds : good a s) : Safe (Pure.pure a) s good :=
  ⟨.ok a, s, rfl, fun _ same => Except.ok.inj same ▸ holds⟩

theorem throw (e : AnalysisError) : Safe (MonadExcept.throw e) s good :=
  ⟨.error e, s, rfl, fun _ same => nomatch same⟩

/-- What holds after the first step is what the next one may rely on. -/
theorem bind (safe : Safe x s good)
    (follows : ∀ a s', good a s' → Safe (next a) s' better) : Safe (x >>= next) s better := by
  obtain ⟨outcome, s', ran, holds⟩ := safe
  unfold Safe
  rw [ExceptT.run_bind, StateT.run_bind, ran, ok_bind]
  cases outcome with
  | error e => exact ⟨.error e, s', rfl, fun _ same => nomatch same⟩
  | ok a => exact follows a s' (holds a rfl)

theorem of_run {a : α} {s' : σ} (safe : Safe x s good)
    (run : x.run.run s = .ok (.ok a, s')) : good a s' := by
  obtain ⟨outcome, last, ran, holds⟩ := safe
  cases ran.symm.trans run
  exact holds a rfl

/-- A check that succeeds does not touch the state. -/
theorem lift_bind {x : Checked α} {a : α}
    (run : x = .ok a) (follows : Safe (next a) s better) : Safe (liftM x >>= next) s better := by
  subst run
  exact follows

theorem get_bind {next : σ → Stateful σ β} (follows : Safe (next s) s better) :
    Safe (MonadState.get >>= next) s better := follows

theorem modify {change : σ → σ} {good : Unit → σ → Prop} (holds : good () (change s)) :
    Safe (modifyThe σ change : Stateful σ Unit) s good :=
  ⟨.ok (), change s, rfl, fun _ _ => holds⟩

theorem set_bind {new : σ} {next : Unit → Stateful σ β}
    (follows : Safe (next ()) new better) : Safe (MonadStateOf.set new >>= next) s better := follows

/-- A loop is safe if each of its steps is and keeps what the next one needs. -/
theorem forM (holds : σ → Prop) {items : List α} {body : α → Stateful σ Unit}
    (initial : holds s) (each : ∀ item ∈ items, ∀ s, holds s → Safe (body item) s fun _ => holds) :
    Safe (items.forM body) s fun _ => holds := by
  induction items generalizing s with
  | nil => exact .pure initial
  | cons item rest ih =>
    refine (each item (.head _) s initial).bind fun _ s' kept => ?_
    exact ih kept fun item member => each item (.tail _ member)

end Safe

/-- Whatever comes of a step that is begun in the state `s`, this and the state it leaves are as demanded. -/
def Ensures {σ : Type} (x : Stateful σ α) (s : σ)
    (good : Except AnalysisError α → σ → Prop) : Prop :=
  ∀ outcome s', x.run.run s = .ok (outcome, s') → good outcome s'

namespace Ensures

variable {σ : Type} {s : σ} {x : Stateful σ α} {next : α → Stateful σ β}
  {good : Except AnalysisError α → σ → Prop} {better : Except AnalysisError β → σ → Prop}

theorem pure {a : α} (holds : good (.ok a) s) : Ensures (Pure.pure a) s good := by
  intro outcome s' run
  cases run
  exact holds

theorem throw {e : AnalysisError} (holds : good (.error e) s) : Ensures (MonadExcept.throw e) s good := by
  intro outcome s' run
  cases run
  exact holds

/-- After an error the rest is skipped, so what holds then has to hold at the end as well. -/
theorem bind (first : Ensures x s good)
    (follows : ∀ a s', good (.ok a) s' → Ensures (next a) s' better)
    (fails : ∀ e s', good (.error e) s' → better (.error e) s') : Ensures (x >>= next) s better := by
  intro outcome s' run
  rw [ExceptT.run_bind, StateT.run_bind] at run
  obtain ⟨⟨outcome', mid⟩, ran, run⟩ := bind_eq_ok.mp run
  have holds := first outcome' mid ran
  cases outcome' with
  | error e =>
    cases run
    exact fails e mid holds
  | ok a => exact follows a mid holds outcome s' run

theorem bind_run {a : α} {s' : σ} (ran : x.run.run s = .ok (.ok a, s'))
    (follows : Ensures (next a) s' better) : Ensures (x >>= next) s better := by
  intro outcome last run
  rw [ExceptT.run_bind, StateT.run_bind, ran] at run
  exact follows outcome last run

theorem bind_error {e : AnalysisError} {s' : σ}
    (ran : x.run.run s = .ok (.error e, s')) (holds : better (.error e) s') : Ensures (x >>= next) s better := by
  intro outcome last run
  rw [ExceptT.run_bind, StateT.run_bind, ran] at run
  cases run
  exact holds

/-- What each of two steps keeps, both keep, whether or not the first one gives anything. -/
theorem keep {holds : σ → Prop} (first : Ensures x s fun _ => holds)
    (follows : ∀ a s', holds s' → Ensures (next a) s' fun _ => holds) : Ensures (x >>= next) s fun _ => holds :=
  first.bind follows fun _ _ => id

/-- A step that never ends in an error needs no care for one. -/
theorem bind_ok {holds : α → σ → Prop}
    (first : Ensures x s fun outcome s' => ∃ a, outcome = .ok a ∧ holds a s')
    (follows : ∀ a s', holds a s' → Ensures (next a) s' better) : Ensures (x >>= next) s better := by
  refine first.bind (fun a s' given => ?_) fun e s' failed => ?_
  · obtain ⟨_, same, kept⟩ := given
    cases same
    exact follows a s' kept
  · obtain ⟨_, same, _⟩ := failed
    cases same

theorem lift_bind {x : Checked α}
    (follows : ∀ a, x = .ok a → Ensures (next a) s better) : Ensures (liftM x >>= next) s better := by
  intro outcome s' run
  cases ran : x with
  | error fault =>
    rw [ran] at run
    cases run
  | ok a =>
    rw [ran] at run
    exact follows a ran outcome s' run

theorem get_bind {next : σ → Stateful σ β} (follows : Ensures (next s) s better) :
    Ensures (MonadState.get >>= next) s better := follows

theorem modify {change : σ → σ} {good : Except AnalysisError Unit → σ → Prop} (holds : good (.ok ()) (change s)) :
    Ensures (modifyThe σ change : Stateful σ Unit) s good := by
  intro outcome s' run
  cases run
  exact holds

theorem set_bind {new : σ} {next : Unit → Stateful σ β}
    (follows : Ensures (next ()) new better) : Ensures (MonadStateOf.set new >>= next) s better := follows

/-- What each turn of a loop keeps holds at its end, however the loop ends. -/
theorem forM (holds : σ → Prop) {items : List α} {body : α → Stateful σ Unit}
    (initial : holds s) (each : ∀ item ∈ items, ∀ s, holds s → Ensures (body item) s fun _ => holds) :
    Ensures (items.forM body) s fun _ => holds := by
  induction items generalizing s with
  | nil => exact .pure initial
  | cons item rest ih =>
    refine (each item (.head _) s initial).keep fun _ s' kept => ?_
    exact ih kept fun item member => each item (.tail _ member)

/-- A loop whose steps all succeed; `holds` speaks of the items that are still to come. -/
theorem forM_ok (holds : List α → σ → Prop) {items : List α}
    {body : α → Stateful σ Unit} (initial : holds items s)
    (each : ∀ item rest s, holds (item :: rest) s → Ensures (body item) s fun outcome s' =>
      ∃ u, outcome = .ok u ∧ holds rest s') :
    Ensures (items.forM body) s fun outcome s' => ∃ u, outcome = .ok u ∧ holds [] s' := by
  induction items generalizing s with
  | nil => exact .pure ⟨(), rfl, initial⟩
  | cons item rest ih => exact (each item rest s initial).bind_ok fun _ s' kept => ih kept

end Ensures

end Unstack
