import Mathlib.Data.List.Nodup
import Mathlib.Logic.Relation

/-!
# Depth-first walks

`visit` marks a node, visits what hangs below it in order and then finishes it, and gives up at the
first failure. `Walk` says what that does to the state, `skip` being the answer of a node that is
not entered (any more). The fuel bounds the depth; the result is `none` when it runs out, or when a
node is read that may not be.

`visit_rule` is the induction over a visit. Under `Lawful` (the children of a node and its verdict
do not depend on the state, and marks are only set) it gives:

- `visit_explores`: a visit that succeeds has marked what is reachable through unmarked nodes, and
  one that fails has met a bad node there.
- `visit_isSome`: more fuel than there are unmarked nodes is enough, cycles or not.
- `visit_ordered`: nodes finish once, and after their children, those below which they hang
  themselves apart, up to the first that fails.
-/

namespace DepthFirst

open Relation

variable {N E σ : Type}

structure Walk (N E σ : Type) where
  valid : σ → N → Bool
  skip : σ → N → Option (Except E Unit)
  enter : σ → N → σ
  children : σ → N → List N
  /-- After the last child. -/
  finish : σ → N → Except E Unit × σ
  /-- After a child that failed. -/
  abandon : σ → N → σ

/-- Visits in turn, up to the first that fails. -/
def each (f : σ → N → Option (Except E Unit × σ)) : List N → σ → Option (Except E Unit × σ)
  | [], st => some (.ok (), st)
  | c :: cs, st =>
    match f st c with
    | none => none
    | some (.error e, st') => some (.error e, st')
    | some (.ok (), st') => each f cs st'

def visit (W : Walk N E σ) : Nat → σ → N → Option (Except E Unit × σ)
  | 0, _, _ => none
  | fuel + 1, st, n =>
    if W.valid st n then
      match W.skip st n with
      | some r => some (r, st)
      | none =>
        match each (visit W fuel) (W.children st n) (W.enter st n) with
        | none => none
        | some (.error e, st') => some (.error e, W.abandon st' n)
        | some (.ok (), st') => some (W.finish st' n)
    else none

variable {W : Walk N E σ}

theorem visit_of_skip {fuel : Nat} {st : σ} {n : N} {r : Except E Unit} (hv : W.valid st n = true)
    (hs : W.skip st n = some r) : visit W (fuel + 1) st n = some (r, st) := by
  simp only [visit, hv, hs, if_true]

theorem visit_of_enter {fuel : Nat} {st : σ} {n : N} (hv : W.valid st n = true)
    (hs : W.skip st n = none) : visit W (fuel + 1) st n =
      match each (visit W fuel) (W.children st n) (W.enter st n) with
      | none => none
      | some (.error e, st') => some (.error e, W.abandon st' n)
      | some (.ok (), st') => some (W.finish st' n) := by
  simp only [visit, hv, hs, if_true]

/-! ## Induction -/

/-- `P` holds of every visit and `Q` of every row of visits. -/
theorem visit_rule {P : σ → N → Except E Unit → σ → Prop}
    {Q : σ → List N → Except E Unit → σ → Prop}
    (skip : ∀ st n r, W.skip st n = some r → P st n r st)
    (finish : ∀ st n st', W.valid st n = true → W.skip st n = none →
      Q (W.enter st n) (W.children st n) (.ok ()) st' → P st n (W.finish st' n).1 (W.finish st' n).2)
    (abandon : ∀ st n e st', W.skip st n = none →
      Q (W.enter st n) (W.children st n) (.error e) st' → P st n (.error e) (W.abandon st' n))
    (nil : ∀ st, Q st [] (.ok ()) st)
    (cons : ∀ st c cs st' r st'', P st c (.ok ()) st' → Q st' cs r st'' → Q st (c :: cs) r st'')
    (stop : ∀ st c cs e st', P st c (.error e) st' → Q st (c :: cs) (.error e) st') :
    ∀ {fuel : Nat} {st : σ} {n : N} {r : Except E Unit} {st' : σ},
      visit W fuel st n = some (r, st') → P st n r st' := by
  intro fuel
  induction fuel with
  | zero => intro st n r st' h; simp only [visit, reduceCtorEq] at h
  | succ fuel ih =>
    have row : ∀ (cs : List N) (st : σ) (r : Except E Unit) (st' : σ),
        each (visit W fuel) cs st = some (r, st') → Q st cs r st' := by
      intro cs
      induction cs with
      | nil =>
        intro st r st' h
        simp only [each, Option.some.injEq, Prod.mk.injEq] at h
        obtain ⟨rfl, rfl⟩ := h
        exact nil st
      | cons c cs ihcs =>
        intro st r st' h
        rw [each] at h
        split at h
        · cases h
        next e t hv =>
          simp only [Option.some.injEq, Prod.mk.injEq] at h
          obtain ⟨rfl, rfl⟩ := h
          exact stop st c cs e t (ih hv)
        next t hv => exact cons st c cs t r st' (ih hv) (ihcs t r st' h)
    intro st n r st' h
    rw [visit] at h
    split at h
    next hvalid =>
      split at h
      next r' hskip =>
        simp only [Option.some.injEq, Prod.mk.injEq] at h
        obtain ⟨rfl, rfl⟩ := h
        exact skip st n r' hskip
      next hskip =>
        split at h
        · cases h
        next e t hrow =>
          simp only [Option.some.injEq, Prod.mk.injEq] at h
          obtain ⟨rfl, rfl⟩ := h
          exact abandon st n e t hskip (row _ _ _ _ hrow)
        next t hrow =>
          have hfin := finish st n t hvalid hskip (row _ _ _ _ hrow)
          rw [Option.some.inj h] at hfin
          exact hfin
    next => cases h

/-- What every operation keeps, a visit keeps; `K` is known of nodes that may be read. -/
theorem visit_keeps {J : σ → Prop} {K : N → Prop}
    (valid : ∀ st n, J st → W.valid st n = true → K n)
    (enter : ∀ st n, J st → W.skip st n = none → J (W.enter st n))
    (finish : ∀ st n, J st → K n → J (W.finish st n).2) (abandon : ∀ st n, J st → J (W.abandon st n))
    {fuel : Nat} {st st' : σ} {n : N} {r : Except E Unit} (h : visit W fuel st n = some (r, st')) :
    J st → J st' :=
  visit_rule (W := W) (P := fun st _ _ st' => J st → J st') (Q := fun st _ _ st' => J st → J st')
    (fun _ _ _ _ => id)
    (fun st n st' hv hs hq hj => finish st' n (hq (enter st n hj hs)) (valid st n hj hv))
    (fun st n _ st' hs hq hj => abandon st' n (hq (enter st n hj hs))) (fun _ => id)
    (fun _ _ _ _ _ _ hp hq hj => hq (hp hj)) (fun _ _ _ _ _ hp => hp) h

/-! ## What a visit reaches -/

/-- In the states `I`, the walk is over a fixed graph with a fixed verdict on each node. -/
structure Lawful (W : Walk N E σ) (I : σ → Prop) (kids : N → List N) (verdict : N → Except E Unit) :
    Prop where
  children_eq : ∀ {st n}, I st → W.skip st n = none → W.children st n = kids n
  enter : ∀ {st n}, I st → W.skip st n = none → I (W.enter st n)
  finish : ∀ {st n}, I st → W.skip st n = some (.ok ()) → I (W.finish st n).2
  skip_enter : ∀ {st n}, I st → W.skip st n = none → W.skip (W.enter st n) n = some (.ok ())
  skip_enter_of_ne : ∀ {st n x}, I st → W.skip st n = none → x ≠ n →
    W.skip (W.enter st n) x = W.skip st x
  verdict_eq : ∀ {st n}, I st → W.skip st n = some (.ok ()) → (W.finish st n).1 = verdict n
  skip_finish : ∀ {st n}, I st → W.skip st n = some (.ok ()) → verdict n = .ok () →
    ∀ x, W.skip (W.finish st n).2 x = W.skip st x

section

variable (W) (kids : N → List N) (verdict : N → Except E Unit)

/-- `b` hangs below `a`, by way of nodes that are not marked yet. -/
def Reach (st : σ) (a b : N) : Prop :=
  ReflTransGen (fun a b => W.skip st a = none ∧ b ∈ kids a) a b

/-- `roots` have been visited with success, from `st` to `st'`. -/
structure Explored (st : σ) (roots : List N) (st' : σ) : Prop where
  kept : ∀ x, W.skip st x ≠ none → W.skip st' x = W.skip st x
  fresh : ∀ x, W.skip st x = none → W.skip st' x = none ∨
    W.skip st' x = some (.ok ()) ∧ verdict x = .ok () ∧ (∃ r ∈ roots, Reach W kids st r x) ∧
      ∀ c ∈ kids x, W.skip st' c = some (.ok ())
  marked : ∀ r ∈ roots, W.skip st' r = some (.ok ())

/-- `x` fails with `e`, at once or when its turn comes. -/
def Fails (st : σ) (e : E) (x : N) : Prop :=
  W.skip st x = some (.error e) ∨ W.skip st x = none ∧ verdict x = .error e

end

variable {I : σ → Prop} {kids : N → List N} {verdict : N → Except E Unit}

theorem Reach.mono {st st' : σ} (h : ∀ x, W.skip st' x = none → W.skip st x = none) {a b : N}
    (hr : Reach W kids st' a b) : Reach W kids st a b :=
  Relation.ReflTransGen.mono (fun x _ hx => ⟨h x hx.1, hx.2⟩) _ _ hr

namespace Explored

variable {st st' st'' : σ} {n c : N} {cs : List N}

theorem none_of_none (h : Explored W kids verdict st cs st') {x : N} (hx : W.skip st' x = none) :
    W.skip st x = none := by
  by_contra hne
  exact hne (h.kept x hne ▸ hx)

theorem refl (h : W.skip st n = some (.ok ())) : Explored W kids verdict st [n] st where
  kept _ _ := rfl
  fresh _ hx := Or.inl hx
  marked := by simpa using h

theorem nil : Explored W kids verdict st [] st where
  kept _ _ := rfl
  fresh _ hx := Or.inl hx
  marked := by simp

theorem cons (h : Explored W kids verdict st [c] st') (h' : Explored W kids verdict st' cs st'') :
    Explored W kids verdict st (c :: cs) st'' where
  kept x hx := by
    have hx' := h.kept x hx
    rw [h'.kept x (by rwa [hx']), hx']
  fresh x hx := by
    rcases h.fresh x hx with hx' | ⟨hx', hv, ⟨r, hr, hreach⟩, hkids⟩
    · rcases h'.fresh x hx' with hx'' | ⟨hx'', hv, ⟨r, hr, hreach⟩, hkids⟩
      · exact Or.inl hx''
      · exact Or.inr ⟨hx'', hv, ⟨r, List.mem_cons_of_mem c hr, hreach.mono fun _ => h.none_of_none⟩,
          hkids⟩
    · have hok : ∀ y, W.skip st' y = some (.ok ()) → W.skip st'' y = some (.ok ()) := fun y hy => by
        rw [h'.kept y (by simp [hy]), hy]
      refine Or.inr ⟨hok x hx', hv, ⟨r, ?_, hreach⟩, fun d hd => hok d (hkids d hd)⟩
      rw [List.mem_singleton.1 hr]
      exact List.mem_cons_self
  marked r hr := by
    rcases List.mem_cons.1 hr with rfl | hr
    · have hc := h.marked r (List.mem_singleton_self r)
      rw [h'.kept r (by simp [hc]), hc]
    · exact h'.marked r hr

end Explored

theorem Lawful.none_of_enter (L : Lawful W I kids verdict) {st : σ} {n x : N} (hI : I st)
    (hn : W.skip st n = none) (hx : W.skip (W.enter st n) x = none) :
    x ≠ n ∧ W.skip st x = none := by
  have hne : x ≠ n := by
    rintro rfl
    rw [L.skip_enter hI hn] at hx
    exact Option.some_ne_none _ hx
  exact ⟨hne, L.skip_enter_of_ne hI hn hne ▸ hx⟩

/-- What is reached below a child is reached below the node. -/
theorem Lawful.reach_of_enter (L : Lawful W I kids verdict) {st : σ} {n r x : N} (hI : I st)
    (hn : W.skip st n = none) (hr : r ∈ kids n) (h : Reach W kids (W.enter st n) r x) :
    Reach W kids st n x :=
  ReflTransGen.head ⟨hn, hr⟩ (h.mono fun _ hx => (L.none_of_enter hI hn hx).2)

theorem Lawful.explored_finish (L : Lawful W I kids verdict) {st st' : σ} {n : N} (hI : I st)
    (hI' : I st') (hn : W.skip st n = none) (h : Explored W kids verdict (W.enter st n) (kids n) st')
    (hv : verdict n = .ok ()) : Explored W kids verdict st [n] (W.finish st' n).2 := by
  have hself : W.skip st' n = some (.ok ()) := by
    rw [h.kept n (by simp [L.skip_enter hI hn]), L.skip_enter hI hn]
  have hfin := L.skip_finish hI' hself hv
  refine ⟨fun x hx => ?_, fun x hx => ?_, ?_⟩
  · have hne : x ≠ n := by
      rintro rfl
      exact hx hn
    rw [hfin, h.kept x (by rwa [L.skip_enter_of_ne hI hn hne]), L.skip_enter_of_ne hI hn hne]
  · by_cases hne : x = n
    · subst hne
      refine Or.inr ⟨by rw [hfin, hself], hv, ⟨x, List.mem_singleton_self x, .refl⟩, fun c hc => ?_⟩
      rw [hfin, h.marked c hc]
    · rcases h.fresh x (by rwa [L.skip_enter_of_ne hI hn hne]) with hx' | ⟨hx', hvx, hreach, hkids⟩
      · exact Or.inl (by rw [hfin, hx'])
      · obtain ⟨r, hr, hreach⟩ := hreach
        refine Or.inr ⟨by rw [hfin, hx'], hvx,
          ⟨n, List.mem_singleton_self n, L.reach_of_enter hI hn hr hreach⟩, fun c hc => ?_⟩
        rw [hfin, hkids c hc]
  · intro r hr
    rw [List.mem_singleton.1 hr, hfin, hself]

/-- What visits of `roots` in turn come to. -/
def Outcome (W : Walk N E σ) (I : σ → Prop) (kids : N → List N) (verdict : N → Except E Unit)
    (st : σ) (roots : List N) (r : Except E Unit) (st' : σ) : Prop :=
  match r with
  | .ok () => I st' ∧ Explored W kids verdict st roots st'
  | .error e => ∃ c ∈ roots, ∃ x, Reach W kids st c x ∧ Fails W verdict st e x

theorem Outcome.cons {st st' st'' : σ} {c : N} {cs : List N} {r : Except E Unit}
    (hex : Explored W kids verdict st [c] st') (h : Outcome W I kids verdict st' cs r st'') :
    Outcome W I kids verdict st (c :: cs) r st'' := by
  cases r with
  | ok u => exact ⟨h.1, hex.cons h.2⟩
  | error e =>
    obtain ⟨d, hd, x, hreach, hx⟩ := h
    refine ⟨d, List.mem_cons_of_mem c hd, x, hreach.mono fun _ => hex.none_of_none, ?_⟩
    rcases hx with hx | ⟨hx, hv⟩
    · -- what was not marked before does not fail at once now
      by_cases hx0 : W.skip st x = none
      · rcases hex.fresh x hx0 with hx' | ⟨hx', -⟩ <;> rw [hx'] at hx <;> simp at hx
      · exact Or.inl (by rw [← hex.kept x hx0, hx])
    · exact Or.inr ⟨hex.none_of_none hx, hv⟩

theorem Lawful.outcome_finish (L : Lawful W I kids verdict) {st st' : σ} {n : N} (hI : I st)
    (hn : W.skip st n = none)
    (h : Outcome W I kids verdict (W.enter st n) (kids n) (.ok ()) st') :
    Outcome W I kids verdict st [n] (W.finish st' n).1 (W.finish st' n).2 := by
  obtain ⟨hI', hex⟩ := h
  have hself : W.skip st' n = some (.ok ()) := by
    rw [hex.kept n (by simp [L.skip_enter hI hn]), L.skip_enter hI hn]
  rw [L.verdict_eq hI' hself]
  cases hv : verdict n with
  | ok u => exact ⟨L.finish hI' hself, L.explored_finish hI hI' hn hex hv⟩
  | error e => exact ⟨n, List.mem_singleton_self n, n, .refl, Or.inr ⟨hn, hv⟩⟩

theorem Lawful.outcome_abandon (L : Lawful W I kids verdict) {st st' st'' : σ} {n : N} {e : E}
    (hI : I st) (hn : W.skip st n = none)
    (h : Outcome W I kids verdict (W.enter st n) (kids n) (.error e) st') :
    Outcome W I kids verdict st [n] (.error e) st'' := by
  obtain ⟨c, hc, x, hreach, hx⟩ := h
  refine ⟨n, List.mem_singleton_self n, x, L.reach_of_enter hI hn hc hreach, ?_⟩
  rcases hx with hx | ⟨hx, hv⟩
  · have hne : x ≠ n := by
      rintro rfl
      rw [L.skip_enter hI hn] at hx
      simp at hx
    exact Or.inl (L.skip_enter_of_ne hI hn hne ▸ hx)
  · exact Or.inr ⟨(L.none_of_enter hI hn hx).2, hv⟩

/-- A visit that succeeds explores what is below its node; one that fails has met what fails. -/
theorem visit_explores (L : Lawful W I kids verdict) {fuel : Nat} {st st' : σ} {n : N}
    {r : Except E Unit} (hI : I st) (h : visit W fuel st n = some (r, st')) :
    Outcome W I kids verdict st [n] r st' := by
  refine visit_rule (W := W) (P := fun st n r st' => I st → Outcome W I kids verdict st [n] r st')
    (Q := fun st cs r st' => I st → Outcome W I kids verdict st cs r st')
    ?skip ?finish ?abandon ?nil ?cons ?stop h hI
  case skip =>
    intro st n r hskip hI
    cases r with
    | ok u => exact ⟨hI, Explored.refl hskip⟩
    | error e => exact ⟨n, List.mem_singleton_self n, n, .refl, Or.inl hskip⟩
  case finish =>
    intro st n st' _ hn hq hI
    rw [L.children_eq hI hn] at hq
    exact L.outcome_finish hI hn (hq (L.enter hI hn))
  case abandon =>
    intro st n e st' hn hq hI
    rw [L.children_eq hI hn] at hq
    exact L.outcome_abandon hI hn (hq (L.enter hI hn))
  case nil => exact fun st hI => ⟨hI, Explored.nil⟩
  case cons =>
    intro st c cs st' r st'' hp hq hI
    obtain ⟨hI', hex⟩ := hp hI
    exact Outcome.cons hex (hq hI')
  case stop =>
    intro st c cs e st' hp hI
    obtain ⟨d, hd, hx⟩ := hp hI
    rw [List.mem_singleton.1 hd] at hx
    exact ⟨c, List.mem_cons_self, hx⟩

theorem each_explores (L : Lawful W I kids verdict) {fuel : Nat} {st st' : σ} {cs : List N}
    {r : Except E Unit} (hI : I st) (h : each (visit W fuel) cs st = some (r, st')) :
    Outcome W I kids verdict st cs r st' := by
  induction cs generalizing st with
  | nil =>
    simp only [each, Option.some.injEq, Prod.mk.injEq] at h
    obtain ⟨rfl, rfl⟩ := h
    exact ⟨hI, Explored.nil⟩
  | cons c cs ih =>
    rw [each] at h
    split at h
    · cases h
    next e t hv =>
      simp only [Option.some.injEq, Prod.mk.injEq] at h
      obtain ⟨rfl, rfl⟩ := h
      obtain ⟨d, hd, hx⟩ := visit_explores L hI hv
      rw [List.mem_singleton.1 hd] at hx
      exact ⟨c, List.mem_cons_self, hx⟩
    next t hv =>
      obtain ⟨hI', hex⟩ := visit_explores L hI hv
      exact Outcome.cons hex (ih hI' h)

section

variable {st st' : σ} {roots : List N} {x : N}

/-- Everything reachable is marked afterwards. -/
theorem Explored.of_reach (h : Explored W kids verdict st roots st') {n : N} (hn : n ∈ roots)
    (hx : Reach W kids st n x) : W.skip st' x = some (.ok ()) := by
  induction hx with
  | refl => exact h.marked n hn
  | tail _ hstep ih =>
    rcases h.fresh _ hstep.1 with hnone | ⟨-, -, -, hkids⟩
    · rw [hnone] at ih
      exact absurd ih.symm (Option.some_ne_none _)
    · exact hkids _ hstep.2

/-- Marked now and not before: reachable through what was not marked. -/
theorem Explored.fresh_iff (h : Explored W kids verdict st roots st') (hx : W.skip st x = none) :
    W.skip st' x = some (.ok ()) ↔ ∃ n ∈ roots, Reach W kids st n x := by
  refine ⟨fun hx' => ?_, fun ⟨n, hn, hreach⟩ => h.of_reach hn hreach⟩
  rcases h.fresh x hx with hnone | ⟨-, -, hreach, -⟩
  · rw [hnone] at hx'
    exact absurd hx'.symm (Option.some_ne_none _)
  · exact hreach

/-- The visits succeed if and only if nothing fails that they can reach. -/
theorem Outcome.ok_iff {r : Except E Unit} (h : Outcome W I kids verdict st roots r st') :
    r = .ok () ↔ ∀ n ∈ roots, ∀ x, Reach W kids st n x → ∀ e, ¬ Fails W verdict st e x := by
  cases r with
  | ok u =>
    refine iff_of_true rfl fun n hn x hx e hfail => ?_
    have hmarked := h.2.of_reach hn hx
    rcases hfail with hs | ⟨hs, hv⟩
    · rw [h.2.kept x (by simp [hs]), hs] at hmarked
      simp at hmarked
    · rcases h.2.fresh x hs with hnone | ⟨-, hv', -⟩
      · rw [hnone] at hmarked
        simp at hmarked
      · simp [hv] at hv'
  | error e =>
    obtain ⟨c, hc, x, hx, hfail⟩ := h
    exact iff_of_false (by simp) fun hall => hall c hc x hx e hfail

end

/-! ## Termination -/

/-- How many of `U` are not marked. -/
def unmarked (W : Walk N E σ) (U : List N) (st : σ) : Nat := U.countP fun x => (W.skip st x).isNone

theorem countP_lt_of_imp {U : List N} {p q : N → Bool} (h : ∀ x, p x = true → q x = true) {n : N}
    (hn : n ∈ U) (hp : p n = false) (hq : q n = true) : U.countP p < U.countP q := by
  induction U with
  | nil => cases hn
  | cons y ys ih =>
    have hle : ys.countP p ≤ ys.countP q := List.countP_mono_left fun x _ => h x
    rcases List.mem_cons.1 hn with rfl | hn
    · rw [List.countP_cons_of_neg (by simp [hp]), List.countP_cons_of_pos hq]
      omega
    · have := ih hn
      by_cases hy : p y = true
      · rw [List.countP_cons_of_pos hy, List.countP_cons_of_pos (h y hy)]
        omega
      · rw [List.countP_cons_of_neg hy, List.countP_cons]
        omega

theorem Explored.unmarked_le {st st' : σ} {roots : List N} (h : Explored W kids verdict st roots st')
    (U : List N) : unmarked W U st' ≤ unmarked W U st :=
  List.countP_mono_left fun x _ hx => by
    simp only [Option.isNone_iff_eq_none] at hx ⊢
    exact h.none_of_none hx

theorem each_isSome_of (L : Lawful W I kids verdict) {U : List N} {fuel : Nat}
    (hvisit : ∀ st n, I st → n ∈ U → unmarked W U st < fuel → (visit W fuel st n).isSome)
    {cs : List N} (hcs : ∀ c ∈ cs, c ∈ U) {st : σ} (hI : I st) (hf : unmarked W U st < fuel) :
    (each (visit W fuel) cs st).isSome := by
  induction cs generalizing st with
  | nil => rfl
  | cons c cs ih =>
    obtain ⟨⟨r, st'⟩, hv⟩ := Option.isSome_iff_exists.1 (hvisit st c hI (hcs c List.mem_cons_self) hf)
    simp only [each, hv]
    cases r with
    | error e => rfl
    | ok u =>
      obtain ⟨hI', hex⟩ := visit_explores L hI hv
      exact ih (fun d hd => hcs d (List.mem_cons_of_mem c hd)) hI'
        (Nat.lt_of_le_of_lt (hex.unmarked_le U) hf)

/-- A closed set of nodes that may be read is walked to the end, however they hang together. -/
theorem visit_isSome (L : Lawful W I kids verdict) {U : List N}
    (hvalid : ∀ st, I st → ∀ n ∈ U, W.valid st n = true) (hclosed : ∀ n ∈ U, ∀ c ∈ kids n, c ∈ U)
    {fuel : Nat} {st : σ} {n : N} (hI : I st) (hn : n ∈ U) (hf : unmarked W U st < fuel) :
    (visit W fuel st n).isSome := by
  induction fuel generalizing st n with
  | zero => exact absurd hf (Nat.not_lt_zero _)
  | succ fuel ih =>
    cases hs : W.skip st n with
    | some r =>
      rw [visit_of_skip (hvalid st hI n hn) hs]
      rfl
    | none =>
      rw [visit_of_enter (hvalid st hI n hn) hs]
      have hlt : unmarked W U (W.enter st n) < unmarked W U st := by
        refine countP_lt_of_imp (fun x hx => ?_) hn ?_ ?_
        · simp only [Option.isNone_iff_eq_none] at hx ⊢
          exact (L.none_of_enter hI hs hx).2
        · simp [L.skip_enter hI hs]
        · simp [hs]
      have hrow : (each (visit W fuel) (W.children st n) (W.enter st n)).isSome :=
        each_isSome_of L (fun st n hI hn hf => ih hI hn hf) (by rw [L.children_eq hI hs]; exact hclosed n hn) (L.enter hI hs) (by omega)
      obtain ⟨⟨r, st'⟩, hr⟩ := Option.isSome_iff_exists.1 hrow
      simp only [hr]
      cases r <;> rfl

theorem each_isSome (L : Lawful W I kids verdict) {U : List N}
    (hvalid : ∀ st, I st → ∀ n ∈ U, W.valid st n = true) (hclosed : ∀ n ∈ U, ∀ c ∈ kids n, c ∈ U)
    {fuel : Nat} {st : σ} {cs : List N} (hcs : ∀ c ∈ cs, c ∈ U) (hI : I st)
    (hf : unmarked W U st < fuel) : (each (visit W fuel) cs st).isSome :=
  each_isSome_of L (fun _ _ hI hn hf => visit_isSome L hvalid hclosed hI hn hf) hcs hI hf

/-! ## The order in which nodes finish -/

/-- `log` lists the nodes that have been finished. -/
structure Logged (W : Walk N E σ) (log : σ → List N) : Prop where
  enter : ∀ st n, log (W.enter st n) = log st
  finish : ∀ st n, log (W.finish st n).2 = log st ++ [n]
  abandon : ∀ st n, log (W.abandon st n) = log st

section

variable (W) (kids : N → List N) (verdict : N → Except E Unit)

/-- `new` are the nodes finished by visits of `roots` that come to `r`. Each hangs below a root and
comes after its children that were not marked at first, but for those it hangs below. None but the
last of them fails; the failure is its, or that of a node that failed earlier. -/
structure Finished (st : σ) (roots new : List N) (r : Except E Unit) : Prop where
  nodup : new.Nodup
  unmarked : ∀ x ∈ new, W.skip st x = none
  reach : ∀ x ∈ new, ∃ n ∈ roots, Reach W kids st n x
  after : ∀ a x b, new = a ++ x :: b → ∀ c ∈ kids x,
    c ∈ a ∨ W.skip st c = some (.ok ()) ∨ Reach W kids st c x
  throws : ∀ a x b e, new = a ++ x :: b → verdict x = .error e → b = [] ∧ r = .error e
  error : ∀ e, r = .error e → ∃ x, (∃ n ∈ roots, Reach W kids st n x) ∧
    (W.skip st x = some (.error e) ∨ verdict x = .error e ∧ ∃ a, new = a ++ [x])

end

/-- They are all the nodes marked in between. -/
def Marked (W : Walk N E σ) (st : σ) (new : List N) (st' : σ) : Prop :=
  ∀ x, x ∈ new ↔ W.skip st x = none ∧ W.skip st' x = some (.ok ())

theorem Marked.append {st st' st'' : σ} {roots cs new new' : List N}
    (hex : Explored W kids verdict st roots st') (hex' : Explored W kids verdict st' cs st'')
    (h : Marked W st new st') (h' : Marked W st' new' st'') : Marked W st (new ++ new') st'' := by
  intro x
  rw [List.mem_append, h x, h' x]
  constructor
  · rintro (⟨hx, hx'⟩ | ⟨hx, hx'⟩)
    · exact ⟨hx, by rw [hex'.kept x (by simp [hx']), hx']⟩
    · exact ⟨hex.none_of_none hx, hx'⟩
  · rintro ⟨hx, hx''⟩
    rcases hex.fresh x hx with hx' | ⟨hx', -⟩
    · exact Or.inr ⟨hx', hx''⟩
    · exact Or.inl ⟨hx, hx'⟩

/-- Where a node of two lists stands in one of them. -/
theorem split_append {l l' a b : List N} {x : N} (h : l ++ l' = a ++ x :: b) :
    (∃ b', l = a ++ x :: b' ∧ b = b' ++ l') ∨ ∃ a', a = l ++ a' ∧ l' = a' ++ x :: b := by
  rcases List.append_eq_append_iff.1 h with ⟨a', ha, hb⟩ | ⟨c, hc, hb⟩
  · exact Or.inr ⟨a', ha, hb⟩
  · cases c with
    | nil =>
      rw [List.append_nil] at hc
      exact Or.inr ⟨[], by rw [List.append_nil, hc], hb.symm⟩
    | cons y ys =>
      rw [List.cons_append, List.cons.injEq] at hb
      obtain ⟨rfl, rfl⟩ := hb
      exact Or.inl ⟨ys, hc, rfl⟩

theorem Finished.append {st st' : σ} {roots cs new new' : List N} {r : Except E Unit}
    (hex : Explored W kids verdict st roots st') (hmarked : Marked W st new st')
    (h : Finished W kids verdict st roots new (.ok ()))
    (h' : Finished W kids verdict st' cs new' r) :
    Finished W kids verdict st (roots ++ cs) (new ++ new') r where
  nodup := by
    refine List.nodup_append'.2 ⟨h.nodup, h'.nodup, fun x hx hx' => ?_⟩
    have hnone := h'.unmarked x hx'
    rw [((hmarked x).1 hx).2] at hnone
    exact Option.some_ne_none _ hnone
  unmarked x hx := by
    rcases List.mem_append.1 hx with hx | hx
    · exact h.unmarked x hx
    · exact hex.none_of_none (h'.unmarked x hx)
  reach x hx := by
    rcases List.mem_append.1 hx with hx | hx
    · obtain ⟨n, hn, hreach⟩ := h.reach x hx
      exact ⟨n, List.mem_append_left _ hn, hreach⟩
    · obtain ⟨n, hn, hreach⟩ := h'.reach x hx
      exact ⟨n, List.mem_append_right _ hn, hreach.mono fun _ => hex.none_of_none⟩
  after a x b hsplit c hc := by
    rcases split_append hsplit with ⟨b', hnew, -⟩ | ⟨a', rfl, hnew'⟩
    · exact h.after a x b' hnew c hc
    · rcases h'.after a' x b hnew' c hc with hca | hca | hca
      · exact Or.inl (List.mem_append_right _ hca)
      · by_cases hc0 : W.skip st c = none
        · exact Or.inl (List.mem_append_left _ ((hmarked c).2 ⟨hc0, hca⟩))
        · exact Or.inr (Or.inl (hex.kept c hc0 ▸ hca))
      · exact Or.inr (Or.inr (hca.mono fun _ => hex.none_of_none))
  throws a x b e hsplit hv := by
    rcases split_append hsplit with ⟨b', hnew, -⟩ | ⟨a', -, hnew'⟩
    · exact absurd (h.throws a x b' e hnew hv).2 (by simp)
    · exact h'.throws a' x b e hnew' hv
  error e he := by
    obtain ⟨x, ⟨n, hn, hreach⟩, hx⟩ := h'.error e he
    refine ⟨x, ⟨n, List.mem_append_right _ hn, hreach.mono fun _ => hex.none_of_none⟩, ?_⟩
    rcases hx with hx | ⟨hv, a, rfl⟩
    · -- it had failed before the first visits
      left
      by_cases hx0 : W.skip st x = none
      · rcases hex.fresh x hx0 with hnone | ⟨hok, -⟩
        · rw [hnone] at hx
          cases hx
        · rw [hok] at hx
          cases hx
      · rw [← hex.kept x hx0, hx]
    · exact Or.inr ⟨hv, new ++ a, (List.append_assoc _ _ _).symm⟩

/-- The node that has been entered apart, nothing is marked by that. -/
theorem Lawful.marked_of_enter (L : Lawful W I kids verdict) {st : σ} {n c : N} (hI : I st)
    (hn : W.skip st n = none) (hc : W.skip (W.enter st n) c = some (.ok ())) :
    W.skip st c = some (.ok ()) ∨ c = n := by
  by_cases hne : c = n
  · exact Or.inr hne
  · exact Or.inl (L.skip_enter_of_ne hI hn hne ▸ hc)

/-- The children of a node have been visited, and it is given up. -/
theorem Lawful.finished_abandon (L : Lawful W I kids verdict) {st : σ} {n : N} {new : List N}
    {r : Except E Unit} (hI : I st) (hn : W.skip st n = none)
    (h : Finished W kids verdict (W.enter st n) (kids n) new r) :
    Finished W kids verdict st [n] new r := by
  have hreach : ∀ x, (∃ k ∈ kids n, Reach W kids (W.enter st n) k x) → Reach W kids st n x := by
    rintro x ⟨k, hk, hx⟩
    exact L.reach_of_enter hI hn hk hx
  refine ⟨h.nodup, ?_, ?_, ?_, h.throws, ?_⟩
  · exact fun x hx => (L.none_of_enter hI hn (h.unmarked x hx)).2
  · exact fun x hx => ⟨n, List.mem_singleton_self n, hreach x (h.reach x hx)⟩
  · intro a x b hnew c hc
    rcases h.after a x b hnew c hc with hca | hca | hca
    · exact Or.inl hca
    · rcases L.marked_of_enter hI hn hca with hcm | rfl
      · exact Or.inr (Or.inl hcm)
      · exact Or.inr (Or.inr (hreach x (h.reach x (hnew ▸ List.mem_append_right a List.mem_cons_self))))
    · exact Or.inr (Or.inr (hca.mono fun _ hy => (L.none_of_enter hI hn hy).2))
  · intro e he
    obtain ⟨x, hx, hfail⟩ := h.error e he
    refine ⟨x, ⟨n, List.mem_singleton_self n, hreach x hx⟩, ?_⟩
    rcases hfail with hskip | hfail
    · left
      have hne : x ≠ n := by
        rintro rfl
        rw [L.skip_enter hI hn] at hskip
        cases hskip
      rw [← L.skip_enter_of_ne hI hn hne, hskip]
    · exact Or.inr hfail

/-- They have been visited with success, and the node is finished. -/
theorem Lawful.finished_finish (L : Lawful W I kids verdict) {st st' : σ} {n : N} {new : List N}
    (hI : I st) (hn : W.skip st n = none)
    (hex : Explored W kids verdict (W.enter st n) (kids n) st') (hmarked : Marked W (W.enter st n) new st')
    (h : Finished W kids verdict (W.enter st n) (kids n) new (.ok ())) :
    Finished W kids verdict st [n] (new ++ [n]) (verdict n) := by
  have hrow : Finished W kids verdict st [n] new (.ok ()) := L.finished_abandon hI hn h
  have hlast : ∀ {a b : List N} {x : N}, [n] = a ++ x :: b → a = [] ∧ x = n ∧ b = [] := by
    intro a b x heq
    cases a with
    | nil =>
      obtain ⟨rfl, rfl⟩ := List.cons.inj heq
      exact ⟨rfl, rfl, rfl⟩
    | cons y ys =>
      have hnil := (List.cons.inj heq).2
      exact absurd hnil (by simp)
  refine ⟨?_, ?_, ?_, ?_, ?_, ?_⟩
  · refine List.nodup_append'.2 ⟨h.nodup, List.nodup_singleton n, fun x hx hx' => ?_⟩
    exact (L.none_of_enter hI hn (h.unmarked x hx)).1 (List.mem_singleton.1 hx')
  · intro x hx
    rcases List.mem_append.1 hx with hx | hx
    · exact hrow.unmarked x hx
    · rw [List.mem_singleton.1 hx, hn]
  · intro x hx
    rcases List.mem_append.1 hx with hx | hx
    · exact hrow.reach x hx
    · rw [List.mem_singleton.1 hx]
      exact ⟨n, List.mem_singleton_self n, .refl⟩
  · intro a x b hsplit c hc
    rcases split_append hsplit with ⟨b', hnew, -⟩ | ⟨a', rfl, heq⟩
    · exact hrow.after a x b' hnew c hc
    · obtain ⟨rfl, rfl, rfl⟩ := hlast heq
      have hc' := hex.marked c hc
      by_cases hc0 : W.skip (W.enter st x) c = none
      · exact Or.inl (List.mem_append_left _ ((hmarked c).2 ⟨hc0, hc'⟩))
      · rcases L.marked_of_enter hI hn (hex.kept c hc0 ▸ hc') with hcm | rfl
        · exact Or.inr (Or.inl hcm)
        · exact Or.inr (Or.inr .refl)
  · intro a x b e hsplit hv
    rcases split_append hsplit with ⟨b', hnew, -⟩ | ⟨a', -, heq⟩
    · exact absurd (h.throws a x b' e hnew hv).2 (by simp)
    · obtain ⟨-, rfl, rfl⟩ := hlast heq
      exact ⟨rfl, hv⟩
  · intro e he
    exact ⟨n, ⟨n, List.mem_singleton_self n, .refl⟩, Or.inr ⟨he, new, rfl⟩⟩

theorem Lawful.marked_finish (L : Lawful W I kids verdict) {st st' : σ} {n : N} {new : List N}
    (hI : I st) (hI' : I st') (hn : W.skip st n = none)
    (hex : Explored W kids verdict (W.enter st n) (kids n) st')
    (h : Marked W (W.enter st n) new st') (hv : verdict n = .ok ()) :
    Marked W st (new ++ [n]) (W.finish st' n).2 := by
  have hself : W.skip st' n = some (.ok ()) := by
    rw [hex.kept n (by simp [L.skip_enter hI hn]), L.skip_enter hI hn]
  intro x
  rw [List.mem_append, h x, List.mem_singleton, L.skip_finish hI' hself hv]
  constructor
  · rintro (⟨hx, hx'⟩ | rfl)
    · exact ⟨(L.none_of_enter hI hn hx).2, hx'⟩
    · exact ⟨hn, hself⟩
  · rintro ⟨hx, hx'⟩
    by_cases hne : x = n
    · exact Or.inr hne
    · exact Or.inl ⟨by rwa [L.skip_enter_of_ne hI hn hne], hx'⟩

/-- A visit finishes nodes below its root, each once and in order, up to the first that fails; where
it succeeds, they are all that it marks. -/
theorem visit_ordered {log : σ → List N} (L : Lawful W I kids verdict) (hlog : Logged W log) {fuel : Nat}
    {st st' : σ} {n : N} {r : Except E Unit} (hI : I st) (h : visit W fuel st n = some (r, st')) :
    ∃ new, log st' = log st ++ new ∧ Finished W kids verdict st [n] new r ∧
      (r = .ok () → Marked W st new st') := by
  refine (visit_rule (W := W)
    (P := fun st n r st' => I st → Outcome W I kids verdict st [n] r st' ∧
      ∃ new, log st' = log st ++ new ∧ Finished W kids verdict st [n] new r ∧
        (r = .ok () → Marked W st new st'))
    (Q := fun st cs r st' => I st → Outcome W I kids verdict st cs r st' ∧
      ∃ new, log st' = log st ++ new ∧ Finished W kids verdict st cs new r ∧
        (r = .ok () → Marked W st new st'))
    ?skip ?finish ?abandon ?nil ?cons ?stop h hI).2
  case skip =>
    intro st n r hskip hI
    refine ⟨?_, [], by simp, ⟨List.nodup_nil, by simp, by simp, by simp, by simp, ?_⟩, fun _ x => ?_⟩
    · cases r with
      | ok u => exact ⟨hI, Explored.refl hskip⟩
      | error e => exact ⟨n, List.mem_singleton_self n, n, .refl, Or.inl hskip⟩
    · rintro e rfl
      exact ⟨n, ⟨n, List.mem_singleton_self n, .refl⟩, Or.inl hskip⟩
    · simp only [List.not_mem_nil, false_iff, not_and]
      intro hx hx'
      simp [hx] at hx'
  case finish =>
    intro st n st' _ hn hq hI
    rw [L.children_eq hI hn] at hq
    obtain ⟨hout, new, hnew, hfin, hmarked⟩ := hq (L.enter hI hn)
    have hfinished := L.outcome_finish hI hn hout
    obtain ⟨hI', hex⟩ := hout
    have hself : W.skip st' n = some (.ok ()) := by
      rw [hex.kept n (by simp [L.skip_enter hI hn]), L.skip_enter hI hn]
    refine ⟨hfinished, new ++ [n], ?_, ?_, fun hr => ?_⟩
    · rw [hlog.finish, hnew, hlog.enter, List.append_assoc]
    · rw [L.verdict_eq hI' hself]
      exact L.finished_finish hI hn hex (hmarked rfl) hfin
    · exact L.marked_finish hI hI' hn hex (hmarked rfl) (L.verdict_eq hI' hself ▸ hr)
  case abandon =>
    intro st n e st' hn hq hI
    rw [L.children_eq hI hn] at hq
    obtain ⟨hout, new, hnew, hfin, -⟩ := hq (L.enter hI hn)
    refine ⟨L.outcome_abandon hI hn hout, new, ?_, L.finished_abandon hI hn hfin, by simp⟩
    rw [hlog.abandon, hnew, hlog.enter]
  case nil =>
    refine fun st hI => ⟨⟨hI, Explored.nil⟩, [], by simp,
      ⟨List.nodup_nil, by simp, by simp, by simp, by simp, by simp⟩, fun _ x => ?_⟩
    simp only [List.not_mem_nil, false_iff, not_and]
    intro hx hx'
    simp [hx] at hx'
  case cons =>
    intro st c cs st' r st'' hp hq hI
    obtain ⟨⟨hI', hex⟩, new, hnew, hfin, hmarked⟩ := hp hI
    obtain ⟨hout', new', hnew', hfin', hmarked'⟩ := hq hI'
    refine ⟨Outcome.cons hex hout', new ++ new', ?_, hfin.append hex (hmarked rfl) hfin', fun hr => ?_⟩
    · rw [hnew', hnew, List.append_assoc]
    · subst hr
      exact Marked.append hex hout'.2 (hmarked rfl) (hmarked' rfl)
  case stop =>
    intro st c cs e st' hp hI
    obtain ⟨⟨d, hd, hx⟩, new, hnew, hfin, -⟩ := hp hI
    rw [List.mem_singleton.1 hd] at hx
    refine ⟨⟨c, List.mem_cons_self, hx⟩, new, hnew,
      ⟨hfin.nodup, hfin.unmarked, fun x hx => ?_, hfin.after, hfin.throws, fun e he => ?_⟩, by simp⟩
    · obtain ⟨n, hn, hreach⟩ := hfin.reach x hx
      exact ⟨n, List.mem_cons.2 (Or.inl (List.mem_singleton.1 hn)), hreach⟩
    · obtain ⟨x, ⟨n, hn, hreach⟩, hfail⟩ := hfin.error e he
      exact ⟨x, ⟨n, List.mem_cons.2 (Or.inl (List.mem_singleton.1 hn)), hreach⟩, hfail⟩

end DepthFirst
