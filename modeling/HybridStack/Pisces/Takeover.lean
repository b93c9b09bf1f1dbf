import HybridStack.Pisces.Remove

/-!
# Takeovers by `@Inherited` classes: `replace` (QuickAppMetaDataProcessor.kt:278-296)

An `InheritedMetaData` walks its superclasses, nearest first, and rewrites the class of the first
listed entry it meets. Both processors run all takeovers of `sons` in scan order, each on the list
the ones before left behind: `resolveInherited` (two lists, extensions before widgets),
`resolveWebInherited` (one list).

* `resolveInherited_inv` — whatever the order, an entry only ever moves down to the class of an
  `InheritedMetaData` below its own.
* `resolveInherited_unresolved` — a class without a listed ancestor makes every order fail.
* `resolveInherited_eq` — when no two takeovers aim at one entry (`Unambiguous`) each of them finds
  what it would find in the untouched lists, and the result is a map over the entries.
-/

namespace HybridStack.Pisces

open Ancestry (Hierarchy)

section
variable {T : Type} [IsMetaData T]

/-! ## `replace` -/

/-- The inner loop, `for (e in this)`, for one superclass. -/
def replaceIn (i : InheritedMetaData) (superClass : String) : List (Option T) → Option (List (Option T))
  | [] => none
  | none :: es => (replaceIn i superClass es).map (none :: ·)
  | some e :: es =>
    if IsMetaData.classname e = superClass then some (some (takeOver e i) :: es)
    else (replaceIn i superClass es).map (some e :: ·)

/-- The outer loop, `for (superClass in i.superClasses)`. -/
def replaceLoop (i : InheritedMetaData) (es : List (Option T)) : List String → Option (List (Option T))
  | [] => none
  | superClass :: rest =>
    match replaceIn i superClass es with
    | some es' => some es'
    | none => replaceLoop i es rest

/-- `MutableList<T?>?.replace`: the rewritten list, or `none` for `return false`, which leaves the
list as it was. -/
def replace (es : List (Option T)) (i : InheritedMetaData) : Option (List (Option T)) :=
  if es.isEmpty then none else replaceLoop i es i.superClasses

/-! ## `replace` on a list without nulls -/

/-- Some entry of the list has this class. -/
def present (es : List T) (c : String) : Bool := es.any fun e => IsMetaData.classname e == c

theorem present_iff {es : List T} {c : String} :
    present es c = true ↔ ∃ e ∈ es, IsMetaData.classname e = c := by
  simp [present]

/-- The class `i` takes over: its nearest superclass with an entry. -/
def found (es : List T) (i : InheritedMetaData) : Option String := i.superClasses.find? (present es)

/-- The first entry of class `c` goes to `i`. -/
def takeFirst (i : InheritedMetaData) (c : String) : List T → List T
  | [] => []
  | e :: es => if IsMetaData.classname e = c then takeOver e i :: es else e :: takeFirst i c es

theorem replaceIn_map_some (i : InheritedMetaData) (c : String) : ∀ es : List T,
    replaceIn i c (es.map some) = if present es c then some ((takeFirst i c es).map some) else none
  | [] => rfl
  | e :: es => by
    have ih := replaceIn_map_some i c es
    simp only [List.map_cons, replaceIn, takeFirst]
    by_cases hc : IsMetaData.classname e = c
    · simp [hc, present]
    · have hp : present (e :: es) c = present es c := by simp [present, hc]
      rw [if_neg hc, ih, hp, if_neg hc]
      split <;> simp

theorem replace_map_some (es : List T) (i : InheritedMetaData) :
    replace (es.map some) i = (found es i).map fun c => (takeFirst i c es).map some := by
  have hloop : ∀ cs, replaceLoop i (es.map some) cs =
      (cs.find? (present es)).map fun c => (takeFirst i c es).map some := by
    intro cs
    induction cs with
    | nil => rfl
    | cons c cs ih =>
      rw [replaceLoop, replaceIn_map_some, List.find?_cons]
      cases present es c <;> simp [ih]
  unfold replace
  split
  next h =>
    have hes : es = [] := by simpa using h
    subst hes
    have hnone : found ([] : List T) i = none := List.find?_eq_none.2 fun _ _ => by simp [present]
    rw [hnone]; rfl
  next h => rw [hloop]; rfl

/-- A successful takeover rewrites one entry, of a class above the taker. -/
theorem takeFirst_split (i : InheritedMetaData) (c : String) : ∀ {es : List T}, present es c = true →
    ∃ pre e post, es = pre ++ e :: post ∧ IsMetaData.classname e = c ∧
      (∀ x ∈ pre, IsMetaData.classname x ≠ c) ∧ takeFirst i c es = pre ++ takeOver e i :: post
  | [], h => by simp [present] at h
  | e :: es, h => by
    by_cases hc : IsMetaData.classname e = c
    · exact ⟨[], e, es, rfl, hc, by simp, by simp [takeFirst, hc]⟩
    · have hp : present es c = true := by simpa [present, hc] using h
      obtain ⟨pre, e', post, h1, h2, h3, h4⟩ := takeFirst_split i c hp
      refine ⟨e :: pre, e', post, by rw [h1]; rfl, h2, ?_, by simp [takeFirst, hc, h4]⟩
      simpa [hc] using h3

/-! ## Where an entry comes from -/

/-- `e` is an entry of `es`, or one taken over by an `InheritedMetaData` of `is` below it. -/
def Origin (H : Hierarchy String) (is : List InheritedMetaData) (es : List T) (e : T) : Prop :=
  ∃ o ∈ es, e = o ∨ ∃ i ∈ is, IsMetaData.classname o ∈ H.chain i.classname ∧ e = takeOver o i

theorem Origin.self {H : Hierarchy String} {is : List InheritedMetaData} {es : List T} {e : T}
    (h : e ∈ es) : Origin H is es e := ⟨e, h, Or.inl rfl⟩

theorem Origin.consistent {H : Hierarchy String} {is : List InheritedMetaData} {es : List T} {e : T}
    (h : Origin H is es e) (hes : ∀ e ∈ es, Consistent H e)
    (his : ∀ i ∈ is, i.superClasses = H.chain i.classname) : Consistent H e := by
  rcases h with ⟨o, ho, rfl | ⟨i, hi, -, rfl⟩⟩
  · exact hes _ ho
  · simp [Consistent, his i hi]

/-- The origin's class is the entry's own or an ancestor of it. -/
theorem Origin.ancestor {H : Hierarchy String} {is : List InheritedMetaData} {es : List T} {e : T}
    (h : Origin H is es e) :
    ∃ o ∈ es, H.IsAncestorOrSelf (IsMetaData.classname o) (IsMetaData.classname e) := by
  rcases h with ⟨o, ho, rfl | ⟨i, -, hoi, rfl⟩⟩
  · exact ⟨_, ho, Or.inl rfl⟩
  · exact ⟨o, ho, Or.inr (by simpa using hoi)⟩

/-- One takeover keeps the origins. -/
theorem Origin.takeFirst {H : Hierarchy String} {is : List InheritedMetaData} {es es' : List T}
    {i : InheritedMetaData} {c : String} (hes' : ∀ e ∈ es', Origin H is es e) (hi : i ∈ is)
    (hic : i.superClasses = H.chain i.classname) (hc : found es' i = some c) :
    ∀ e ∈ Pisces.takeFirst i c es', Origin H is es e := by
  have hmem : c ∈ H.chain i.classname := hic ▸ List.mem_of_find?_eq_some hc
  obtain ⟨pre, x, post, h1, hx, -, h4⟩ := takeFirst_split i c (List.find?_some hc)
  intro e he
  rw [h4, List.mem_append, List.mem_cons] at he
  rcases he with he | rfl | he
  · exact hes' e (by simp [h1, he])
  · obtain ⟨o, ho, hxo⟩ := hes' x (by simp [h1])
    rcases hxo with rfl | ⟨j, -, hoj, rfl⟩
    · exact ⟨x, ho, Or.inr ⟨i, hi, hx ▸ hmem, rfl⟩⟩
    · refine ⟨o, ho, Or.inr ⟨i, hi, ?_, by simp⟩⟩
      have hji : j.classname ∈ H.chain i.classname := by simpa [← hx] using hmem
      exact H.chain_trans hoj hji
  · exact hes' e (by simp [h1, he])

/-- Entries that moved down make no class findable that was not findable before. -/
theorem found_of_origin {H : Hierarchy String} {is : List InheritedMetaData} {es es' : List T}
    {i : InheritedMetaData} (hes' : ∀ e ∈ es', Origin H is es e)
    (hic : i.superClasses = H.chain i.classname) (hf : found es i = none) : found es' i = none := by
  rw [found, List.find?_eq_none] at hf ⊢
  intro c hc hp
  obtain ⟨e, he, rfl⟩ := present_iff.1 hp
  obtain ⟨o, ho, hoe⟩ := (hes' e he).ancestor
  have hoc : IsMetaData.classname o ∈ i.superClasses := by
    rw [hic] at hc ⊢
    rcases hoe with hoe | hoe
    · rw [hoe]; exact hc
    · exact H.chain_trans hoe hc
  exact hf _ hoc (present_iff.2 ⟨o, ho, rfl⟩)

/-! ## Takeovers that do not interfere -/

/-- `e` after the takeovers of `is`, each aimed (`t`) at a class. -/
def applied (t : InheritedMetaData → Option String) (is : List InheritedMetaData) (e : T) : T :=
  match is.find? fun i => t i == some (IsMetaData.classname e) with
  | some i => takeOver e i
  | none => e

theorem applied_of_not_aimed {t : InheritedMetaData → Option String} {is : List InheritedMetaData}
    {e : T} (h : ∀ i ∈ is, t i ≠ some (IsMetaData.classname e)) : applied t is e = e := by
  have hnone : (is.find? fun i => t i == some (IsMetaData.classname e)) = none :=
    List.find?_eq_none.2 fun i hi => by simpa using h i hi
  simp [applied, hnone]

/-- An entry is untouched, or taken by one that was aimed at its class. -/
theorem applied_cases (t : InheritedMetaData → Option String) (is : List InheritedMetaData) (e : T) :
    applied t is e = e ∨
      ∃ i ∈ is, t i = some (IsMetaData.classname e) ∧ applied t is e = takeOver e i := by
  unfold applied
  split
  next i hi =>
    exact Or.inr ⟨i, List.mem_of_find?_eq_some hi, by simpa using List.find?_some hi, rfl⟩
  next => exact Or.inl rfl

theorem applied_snoc_other {t : InheritedMetaData → Option String} {is : List InheritedMetaData}
    {i : InheritedMetaData} {e : T} (h : t i ≠ some (IsMetaData.classname e)) :
    applied t (is ++ [i]) e = applied t is e := by
  simp [applied, List.find?_append, h]

/-- The takeovers of `is` aimed at this list, each with one taker and one entry. -/
structure Aimed (es : List T) (t : InheritedMetaData → Option String)
    (is : List InheritedMetaData) : Prop where
  found_eq : ∀ i ∈ is, ∀ c, t i = some c → found es i = some c
  one_taker : is.Pairwise fun i j => ∀ c, t i = some c → t j ≠ some c
  one_entry : ∀ i ∈ is, ∀ c, t i = some c →
    es.Pairwise fun e e' => IsMetaData.classname e = c → IsMetaData.classname e' ≠ c
  fresh : ∀ i ∈ is, ∀ j ∈ is, ∀ c, t i = some c → (t j).isSome → j.classname ≠ c

section
variable {H : Hierarchy String} {es : List T} {t : InheritedMetaData → Option String}
  {done : List InheritedMetaData} {i : InheritedMetaData} {rest : List InheritedMetaData}

theorem Aimed.not_aimed (h : Aimed es t (done ++ i :: rest)) {c : String} (hc : t i = some c) :
    ∀ j ∈ done, t j ≠ some c := fun j hj hjc =>
  (List.pairwise_append.1 h.one_taker).2.2 j hj i List.mem_cons_self c hjc hc

/-- The next takeover finds what it would find in the untouched list. -/
theorem Aimed.found_applied (h : Aimed es t (done ++ i :: rest))
    (his : ∀ j ∈ done ++ i :: rest, j.superClasses = H.chain j.classname)
    {c : String} (hc : t i = some c) : found (es.map (applied t done)) i = some c := by
  have hfi := h.found_eq i (by simp) c hc
  have hchain := his i (by simp)
  rw [found, List.find?_eq_some_iff_append] at hfi ⊢
  obtain ⟨hpc, pre, post, hsplit, hpre⟩ := hfi
  have hnear : H.nearest (present es) i.classname = some c := by
    rw [Hierarchy.nearest, ← hchain]
    exact List.find?_eq_some_iff_append.2 ⟨hpc, pre, post, hsplit, hpre⟩
  refine ⟨?_, pre, post, hsplit, fun x hx => ?_⟩
  · -- the entry of class `c` has not been touched
    obtain ⟨e, he, rfl⟩ := present_iff.1 hpc
    refine present_iff.2 ⟨e, List.mem_map.2 ⟨e, he, ?_⟩, rfl⟩
    exact applied_of_not_aimed (h.not_aimed hc)
  · -- an entry that has been moved to a class `x` below `c` was aimed at `c` itself
    cases hpx : present (es.map (applied t done)) x with
    | false => rfl
    | true =>
    exfalso
    obtain ⟨_, he', hex⟩ := present_iff.1 hpx
    obtain ⟨e, he, rfl⟩ := List.mem_map.1 he'
    have hesx : present es x = false := by simpa using hpre x hx
    rcases applied_cases t done e with hu | ⟨j, hj, hje, hu⟩
    · rw [hu] at hex
      simp [present_iff.2 ⟨e, he, hex⟩] at hesx
    · rw [hu, IsMetaData.classname_takeOver] at hex
      obtain ⟨p1, p2, hp⟩ := List.append_of_mem hx
      have hjchain := his j (by simp [hj])
      have hbelow : H.chain i.classname = p1 ++ x :: (p2 ++ c :: post) := by
        rw [← hchain, hsplit, hp]; simp
      have hxnear : H.nearest (present es) x = H.nearest (present es) i.classname :=
        H.nearest_of_passed hbelow (fun y hy => by simpa using hpre y (by simp [hp, hy])) hesx
      have hfj := h.found_eq j (by simp [hj]) _ hje
      rw [found, hjchain, hex] at hfj
      have hce : IsMetaData.classname e = c := by
        rw [hnear, Hierarchy.nearest, hfj] at hxnear
        exact Option.some.inj hxnear
      exact h.not_aimed hc j hj (hce ▸ hje)

/-- The next takeover rewrites the one entry it is aimed at. -/
theorem Aimed.takeFirst_applied (h : Aimed es t (done ++ i :: rest)) {c : String} (hc : t i = some c)
    (hp : present (es.map (applied t done)) c = true) :
    takeFirst i c (es.map (applied t done)) = es.map (applied t (done ++ [i])) := by
  obtain ⟨pre', x, post', h1, hx, hpre', h4⟩ := takeFirst_split i c hp
  obtain ⟨pre, tail, hes, hpre, htail⟩ := List.map_eq_append_iff.1 h1
  obtain ⟨e, post, rfl, hex, hpost⟩ := List.map_eq_cons_iff.1 htail
  -- the class of the entry that is hit is still its own
  have hec : IsMetaData.classname e = c ∧ applied t done e = e := by
    rcases applied_cases t done e with hu | ⟨j, hj, hje, hu⟩
    · exact ⟨by rw [← hx, ← hex, hu], hu⟩
    · have hjc : j.classname = c := by rw [← hx, ← hex, hu, IsMetaData.classname_takeOver]
      exact absurd hjc (h.fresh i (by simp) j (by simp [hj]) c hc (by simp [hje]))
  have hone := h.one_entry i (by simp) c hc
  rw [hes, List.pairwise_append] at hone
  have hothers : ∀ y, y ∈ pre ∨ y ∈ post → applied t (done ++ [i]) y = applied t done y := by
    rintro y hy
    refine applied_snoc_other fun hyc => ?_
    have hyc' : IsMetaData.classname y = c := by
      rw [hc] at hyc; exact (Option.some.inj hyc).symm
    rcases hy with hy | hy
    · exact hone.2.2 y hy e List.mem_cons_self hyc' hec.1
    · exact (List.pairwise_cons.1 hone.2.1).1 y hy hec.1 hyc'
  have he : applied t (done ++ [i]) e = takeOver e i := by
    have hnone : (done.find? fun j => t j == some c) = none :=
      List.find?_eq_none.2 fun j hj => by simpa using h.not_aimed hc j hj
    simp [applied, List.find?_append, hnone, hc, hec.1]
  rw [h4, hes, ← hpre, ← hpost, ← hex, hec.2]
  simp only [List.map_append, List.map_cons, he]
  rw [List.map_congr_left fun y hy => hothers y (Or.inl hy),
    List.map_congr_left fun y hy => hothers y (Or.inr hy)]

end

/-- The takeovers done so far moved entries down only. -/
theorem applied_origin {H : Hierarchy String} {es : List T} {t : InheritedMetaData → Option String}
    {done is : List InheritedMetaData} (hsub : ∀ i ∈ done, i ∈ is)
    (his : ∀ i ∈ is, i.superClasses = H.chain i.classname)
    (ht : ∀ i ∈ done, ∀ c, t i = some c → found es i = some c) :
    ∀ e ∈ es.map (applied t done), Origin H is es e := by
  intro e he
  obtain ⟨o, ho, rfl⟩ := List.mem_map.1 he
  rcases applied_cases t done o with hu | ⟨i, hi, hio, hu⟩
  · rw [hu]; exact Origin.self ho
  · refine ⟨o, ho, Or.inr ⟨i, hsub i hi, ?_, hu⟩⟩
    have hmem := List.mem_of_find?_eq_some (ht i hi _ hio)
    rwa [his i (hsub i hi)] at hmem

end

/-! ## All takeovers of `sons` -/

section
variable {T W : Type} [IsMetaData T] [IsMetaData W]

/-- The `InheritedMetaData` loop of QuickAppMetaDataProcessor.kt:96-104. -/
def resolveInherited : List InheritedMetaData → List (Option T) → List (Option W) →
    Except String (List (Option T) × List (Option W))
  | [], extensions, widgets => .ok (extensions, widgets)
  | inherited :: rest, extensions, widgets =>
    match replace extensions inherited with
    | some extensions => resolveInherited rest extensions widgets
    | none =>
      match replace widgets inherited with
      | some widgets => resolveInherited rest extensions widgets
      | none => .error ("Fail to resolve inherited: " ++ inherited.classname)

/-- The `InheritedMetaData` loop of GeminiMetaDataProcessor.kt:43-48. -/
def resolveWebInherited : List InheritedMetaData → List (Option T) → Except String (List (Option T))
  | [], extensions => .ok extensions
  | inherited :: rest, extensions =>
    match replace extensions inherited with
    | some extensions => resolveWebInherited rest extensions
    | none => .error ("Fail to resolve inherited: " ++ inherited.classname)

/-- The web loop is the other one without widgets. -/
theorem resolveWebInherited_eq : ∀ (is : List InheritedMetaData) (es : List (Option T)),
    resolveWebInherited is es = (resolveInherited is es ([] : List (Option T))).map Prod.fst
  | [], es => rfl
  | i :: is, es => by
    simp only [resolveWebInherited, resolveInherited]
    cases replace es i with
    | some es' => exact resolveWebInherited_eq is es'
    | none => rfl

/-- One turn of the loop on lists without nulls. -/
theorem resolveInherited_cons (i : InheritedMetaData) (is : List InheritedMetaData) (es : List T)
    (ws : List W) : resolveInherited (i :: is) (es.map some) (ws.map some) =
      match found es i with
      | some c => resolveInherited is ((takeFirst i c es).map some) (ws.map some)
      | none =>
        match found ws i with
        | some c => resolveInherited is (es.map some) ((takeFirst i c ws).map some)
        | none => .error ("Fail to resolve inherited: " ++ i.classname) := by
  simp only [resolveInherited, replace_map_some]
  cases found es i with
  | some c => rfl
  | none => cases found ws i <;> rfl

/-- `i` is taken care of: its class or a subclass of it is listed. -/
def Covered (H : Hierarchy String) (es : List T) (ws : List W) (i : InheritedMetaData) : Prop :=
  (∃ e ∈ es, H.IsAncestorOrSelf i.classname (IsMetaData.classname e)) ∨
    ∃ w ∈ ws, H.IsAncestorOrSelf i.classname (IsMetaData.classname w)

/-- A takeover moves an entry down, so what was listed below a class still is. -/
theorem takeFirst_covers {H : Hierarchy String} {es : List T} {i : InheritedMetaData} {c : String}
    (hic : i.superClasses = H.chain i.classname) (hc : found es i = some c) {b : String}
    (hb : ∃ e ∈ es, H.IsAncestorOrSelf b (IsMetaData.classname e)) :
    ∃ e ∈ takeFirst i c es, H.IsAncestorOrSelf b (IsMetaData.classname e) := by
  have hmem : c ∈ H.chain i.classname := hic ▸ List.mem_of_find?_eq_some hc
  obtain ⟨pre, x, post, h1, hx, -, h4⟩ := takeFirst_split i c (List.find?_some hc)
  obtain ⟨e, he, hbe⟩ := hb
  rw [h1, List.mem_append, List.mem_cons] at he
  rcases he with he | rfl | he
  · exact ⟨e, by simp [h4, he], hbe⟩
  · refine ⟨takeOver e i, by simp [h4], hbe.trans H ?_⟩
    rw [IsMetaData.classname_takeOver]
    exact Or.inr (hx ▸ hmem)
  · exact ⟨e, by simp [h4, he], hbe⟩

theorem takeFirst_self {H : Hierarchy String} {es : List T} {i : InheritedMetaData} {c : String}
    (hc : found es i = some c) :
    ∃ e ∈ takeFirst i c es, H.IsAncestorOrSelf i.classname (IsMetaData.classname e) := by
  obtain ⟨pre, x, post, -, -, -, h4⟩ := takeFirst_split i c (List.find?_some hc)
  exact ⟨takeOver x i, by simp [h4], Or.inl (by simp)⟩

/-- **What a run of takeovers keeps.** Entries only move down to classes of `is`, and every
`InheritedMetaData` that has had its turn stays covered. -/
theorem resolveInherited_inv {H : Hierarchy String} {es : List T} {ws : List W}
    {is : List InheritedMetaData} (his : ∀ i ∈ is, i.superClasses = H.chain i.classname) :
    ∀ (rest done : List InheritedMetaData), is = done ++ rest → ∀ (es₁ : List T) (ws₁ : List W),
      (∀ e ∈ es₁, Origin H is es e) → (∀ w ∈ ws₁, Origin H is ws w) →
      (∀ i ∈ done, Covered H es₁ ws₁ i) → ∀ es₂ ws₂,
      resolveInherited rest (es₁.map some) (ws₁.map some) = .ok (es₂, ws₂) →
      ∃ (es' : List T) (ws' : List W), es₂ = es'.map some ∧ ws₂ = ws'.map some ∧
        (∀ e ∈ es', Origin H is es e) ∧ (∀ w ∈ ws', Origin H is ws w) ∧
        ∀ i ∈ is, Covered H es' ws' i
  | [], done, hsplit, es₁, ws₁, he, hw, hcov, es₂, ws₂, h => by
    rw [resolveInherited, Except.ok.injEq, Prod.mk.injEq] at h
    rw [List.append_nil] at hsplit
    exact ⟨es₁, ws₁, h.1.symm, h.2.symm, he, hw, by rw [hsplit]; exact hcov⟩
  | i :: rest, done, hsplit, es₁, ws₁, he, hw, hcov, es₂, ws₂, h => by
    have hi : i ∈ is := by simp [hsplit]
    have hnext : is = (done ++ [i]) ++ rest := by simp [hsplit]
    have hmem : ∀ j ∈ done ++ [i], j ∈ done ∨ j = i := fun j hj => by simpa using hj
    rw [resolveInherited_cons] at h
    split at h
    next c hc =>
      refine resolveInherited_inv his rest (done ++ [i]) hnext _ ws₁
        (Origin.takeFirst he hi (his i hi) hc) hw (fun j hj => ?_) es₂ ws₂ h
      rcases hmem j hj with hj | rfl
      · exact (hcov j hj).imp_left (takeFirst_covers (his i hi) hc)
      · exact Or.inl (takeFirst_self hc)
    next =>
      split at h
      next c hc =>
        refine resolveInherited_inv his rest (done ++ [i]) hnext es₁ _ he
          (Origin.takeFirst hw hi (his i hi) hc) (fun j hj => ?_) es₂ ws₂ h
        rcases hmem j hj with hj | rfl
        · exact (hcov j hj).imp_right (takeFirst_covers (his i hi) hc)
        · exact Or.inr (takeFirst_self hc)
      next => simp at h

/-! ## Order -/

inductive Side | extension | widget
  deriving DecidableEq

/-- The entry `i` finds in the untouched lists: which list, and the class. -/
def target (es : List T) (ws : List W) (i : InheritedMetaData) : Option (Side × String) :=
  match found es i with
  | some c => some (.extension, c)
  | none => (found ws i).map fun c => (.widget, c)

/-- **A class nothing listed is above makes every order fail**: a moved entry is only ever findable
from where it was findable before. -/
theorem resolveInherited_unresolved {H : Hierarchy String} {es : List T} {ws : List W}
    {is : List InheritedMetaData} (his : ∀ i ∈ is, i.superClasses = H.chain i.classname)
    {i : InheritedMetaData} (ht : target es ws i = none) :
    ∀ (rest : List InheritedMetaData), (∀ j ∈ rest, j ∈ is) → i ∈ rest →
      ∀ (es₁ : List T) (ws₁ : List W), (∀ e ∈ es₁, Origin H is es e) →
      (∀ w ∈ ws₁, Origin H is ws w) →
      ∃ message, resolveInherited rest (es₁.map some) (ws₁.map some) = .error message
  | [], _, hi, _, _, _, _ => by simp at hi
  | j :: rest, hsub, hi, es₁, ws₁, he, hw => by
    have hrest : ∀ k ∈ rest, k ∈ is := fun k hk => hsub k (List.mem_cons_of_mem j hk)
    have hj := hsub j List.mem_cons_self
    have hnot : i = j → found es₁ j = none ∧ found ws₁ j = none := by
      rintro rfl
      have hboth : found es i = none ∧ found ws i = none := by
        unfold target at ht
        split at ht
        · simp at ht
        next hf => exact ⟨hf, by simpa using ht⟩
      exact ⟨found_of_origin he (his i hj) hboth.1, found_of_origin hw (his i hj) hboth.2⟩
    have hlater : i ≠ j → i ∈ rest := fun hne => by simpa [hne] using hi
    rw [resolveInherited_cons]
    split
    next c hc =>
      have hne : i ≠ j := fun h => by simp [(hnot h).1] at hc
      exact resolveInherited_unresolved his ht rest hrest (hlater hne) _ ws₁
        (Origin.takeFirst he hj (his j hj) hc) hw
    next =>
      split
      next c hc =>
        have hne : i ≠ j := fun h => by simp [(hnot h).2] at hc
        exact resolveInherited_unresolved his ht rest hrest (hlater hne) es₁ _ he
          (Origin.takeFirst hw hj (his j hj) hc)
      next => exact ⟨_, rfl⟩

/-- No two takeovers of `is` aim at one entry: their targets in the untouched lists differ, each is
the class of one entry of its list only, and no taker has the class of a target. -/
structure Unambiguous (es : List T) (ws : List W) (is : List InheritedMetaData) : Prop where
  targets : (is.map (target es ws)).Nodup
  one_extension : ∀ i ∈ is, ∀ c, target es ws i = some (.extension, c) →
    es.Pairwise fun e e' => IsMetaData.classname e = c → IsMetaData.classname e' ≠ c
  one_widget : ∀ i ∈ is, ∀ c, target es ws i = some (.widget, c) →
    ws.Pairwise fun w w' => IsMetaData.classname w = c → IsMetaData.classname w' ≠ c
  takers : ∀ i ∈ is, ∀ j ∈ is, ∀ s c, target es ws i = some (s, c) → j.classname ≠ c

/-- The class aimed at in one of the two lists. -/
def aim (es : List T) (ws : List W) (s : Side) (i : InheritedMetaData) : Option String :=
  match target es ws i with
  | some (s', c) => if s' = s then some c else none
  | none => none

theorem aim_eq_some {es : List T} {ws : List W} {s : Side} {i : InheritedMetaData} {c : String} :
    aim es ws s i = some c ↔ target es ws i = some (s, c) := by
  unfold aim
  split
  next s' c' h => by_cases hs : s' = s <;> simp [h, hs]
  next h => simp [h]

theorem aim_extension (es : List T) (ws : List W) (i : InheritedMetaData) :
    aim es ws .extension i = found es i := by
  unfold aim target
  cases found es i with
  | some c => rfl
  | none => cases found ws i <;> rfl

theorem aim_widget_found {es : List T} {ws : List W} {i : InheritedMetaData} {c : String}
    (h : aim es ws .widget i = some c) : found es i = none ∧ found ws i = some c := by
  rw [aim_eq_some, target] at h
  split at h
  · simp at h
  next hf => exact ⟨hf, by simpa using h⟩

theorem Unambiguous.one_taker {es : List T} {ws : List W} {is : List InheritedMetaData}
    (h : Unambiguous es ws is) (s : Side) :
    is.Pairwise fun i j => ∀ c, aim es ws s i = some c → aim es ws s j ≠ some c := by
  have hp := List.pairwise_map.1 h.targets
  refine hp.imp fun {i j} hij c hi hj => hij ?_
  rw [aim_eq_some.1 hi, aim_eq_some.1 hj]

theorem Unambiguous.aimed_extension {es : List T} {ws : List W} {is : List InheritedMetaData}
    (h : Unambiguous es ws is) : Aimed es (aim es ws .extension) is where
  found_eq i _ c hc := by rwa [aim_extension] at hc
  one_taker := h.one_taker .extension
  one_entry i hi c hc := h.one_extension i hi c (aim_eq_some.1 hc)
  fresh i hi j hj c hc _ := h.takers i hi j hj _ c (aim_eq_some.1 hc)

theorem Unambiguous.aimed_widget {es : List T} {ws : List W} {is : List InheritedMetaData}
    (h : Unambiguous es ws is) : Aimed ws (aim es ws .widget) is where
  found_eq _ _ _ hc := (aim_widget_found hc).2
  one_taker := h.one_taker .widget
  one_entry i hi c hc := h.one_widget i hi c (aim_eq_some.1 hc)
  fresh i hi j hj c hc _ := h.takers i hi j hj _ c (aim_eq_some.1 hc)

/-- **Takeovers that aim at different entries do not depend on their order**: each list ends as a
map over its entries that does not mention the order. -/
theorem resolveInherited_eq {H : Hierarchy String} {es : List T} {ws : List W}
    {is : List InheritedMetaData} (his : ∀ i ∈ is, i.superClasses = H.chain i.classname)
    (hres : ∀ i ∈ is, target es ws i ≠ none) (hun : Unambiguous es ws is) :
    ∀ (rest done : List InheritedMetaData), is = done ++ rest →
      resolveInherited rest ((es.map (applied (aim es ws .extension) done)).map some)
          ((ws.map (applied (aim es ws .widget) done)).map some) =
        .ok ((es.map (applied (aim es ws .extension) is)).map some,
          (ws.map (applied (aim es ws .widget) is)).map some)
  | [], done, hsplit => by
    rw [List.append_nil] at hsplit
    rw [resolveInherited, hsplit]
  | i :: rest, done, hsplit => by
    have hi : i ∈ is := by simp [hsplit]
    have hdone : ∀ j ∈ done, j ∈ is := fun j hj => by simp [hsplit, hj]
    have hnext : is = (done ++ [i]) ++ rest := by simp [hsplit]
    have ih := resolveInherited_eq his hres hun rest (done ++ [i]) hnext
    have hE := hsplit ▸ hun.aimed_extension
    have hW := hsplit ▸ hun.aimed_widget
    have his' := hsplit ▸ his
    -- a takeover aimed at the other list leaves this one alone
    have hkeepE : aim es ws .extension i = none →
        es.map (applied (aim es ws .extension) (done ++ [i])) =
          es.map (applied (aim es ws .extension) done) := fun h =>
      List.map_congr_left fun e _ => applied_snoc_other (by simp [h])
    have hkeepW : aim es ws .widget i = none →
        ws.map (applied (aim es ws .widget) (done ++ [i])) =
          ws.map (applied (aim es ws .widget) done) := fun h =>
      List.map_congr_left fun w _ => applied_snoc_other (by simp [h])
    rw [resolveInherited_cons]
    cases hte : aim es ws .extension i with
    | some c =>
      have hfound := hE.found_applied his' hte
      have hw : aim es ws .widget i = none := by
        rw [Option.eq_none_iff_forall_not_mem]
        intro c' hc'
        rw [Option.mem_def, aim_eq_some, aim_eq_some.1 hte] at hc'
        simp at hc'
      simp only [hfound]
      rw [hE.takeFirst_applied hte (List.find?_some hfound), ← hkeepW hw, ih]
    | none =>
      have hnone : found (es.map (applied (aim es ws .extension) done)) i = none := by
        refine found_of_origin (applied_origin hdone his fun j _ c hc => ?_) (his i hi) ?_
        · rwa [aim_extension] at hc
        · rwa [aim_extension] at hte
      cases htw : aim es ws .widget i with
      | some c =>
        have hfound := hW.found_applied his' htw
        simp only [hnone, hfound]
        rw [hW.takeFirst_applied htw (List.find?_some hfound), ← hkeepE hte, ih]
      | none =>
        exfalso
        obtain ⟨⟨s, c⟩, hsc⟩ := Option.ne_none_iff_exists'.1 (hres i hi)
        cases s with
        | extension => simp [aim_eq_some.2 hsc] at hte
        | widget => simp [aim_eq_some.2 hsc] at htw

end

end HybridStack.Pisces
