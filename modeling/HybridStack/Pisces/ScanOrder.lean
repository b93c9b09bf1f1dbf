import HybridStack.Pisces.WebTakeover
import Mathlib.Data.List.Pairwise

/-!
# Scan order

`sons` comes in the order the classes were scanned in. Pruning does not look at it
(`undominated_perm`), the takeovers do: `replace` changes the list the next one searches. Where two
`InheritedMetaData` find the same entry in the untouched list, the one scanned first takes it and
the other finds the taker, a class further up, or nothing.

- **`quickApp_perm`**, **`gemini_perm`**: apart from that, every order of `sons` ends the same way.
- `quickApp_not_perm`: a chain of two inherited classes, resolved in one order and not in the other.
-/

namespace HybridStack.Pisces

open Ancestry (Hierarchy)
open Sweep

/-! ## Takeovers under a permutation -/

section
variable {T W : Type} [IsMetaData T] [IsMetaData W]

theorem present_perm {es es' : List T} (h : es.Perm es') : present es = present es' := by
  funext c
  rw [Bool.eq_iff_iff, present_iff, present_iff]
  simp only [h.mem_iff]

theorem target_perm {es es' : List T} {ws ws' : List W} (he : es.Perm es') (hw : ws.Perm ws') :
    target es ws = target es' ws' := by
  funext i
  simp only [target, found, present_perm he, present_perm hw]

theorem aim_perm {es es' : List T} {ws ws' : List W} (he : es.Perm es') (hw : ws.Perm ws')
    (s : Side) : aim es ws s = aim es' ws' s := by
  funext i
  simp only [aim, target_perm he hw]

theorem Unambiguous.perm {es es' : List T} {ws ws' : List W} {is is' : List InheritedMetaData}
    (he : es.Perm es') (hw : ws.Perm ws') (hi : is.Perm is') (h : Unambiguous es ws is) :
    Unambiguous es' ws' is' where
  targets := by
    rw [← target_perm he hw]
    exact (hi.map _).nodup_iff.1 h.targets
  one_extension i hi' c hc := by
    rw [← target_perm he hw] at hc
    exact he.pairwise (h.one_extension i (hi.mem_iff.2 hi') c hc) fun hxy hy hx => hxy hx hy
  one_widget i hi' c hc := by
    rw [← target_perm he hw] at hc
    exact hw.pairwise (h.one_widget i (hi.mem_iff.2 hi') c hc) fun hxy hy hx => hxy hx hy
  takers i hi' j hj s c hc := by
    rw [← target_perm he hw] at hc
    exact h.takers i (hi.mem_iff.2 hi') j (hi.mem_iff.2 hj) s c hc

/-- With one taker for each class, which entry goes to whom does not depend on the order. -/
theorem applied_perm {t : InheritedMetaData → Option String} {is is' : List InheritedMetaData}
    (hone : is.Pairwise fun i j => ∀ c, t i = some c → t j ≠ some c) (hp : is.Perm is') (e : T) :
    applied t is e = applied t is' e := by
  have hpred : ∀ i, (t i == some (IsMetaData.classname e)) = true ↔
      t i = some (IsMetaData.classname e) := fun i => beq_iff_eq
  unfold applied
  cases hf : is.find? fun i => t i == some (IsMetaData.classname e) with
  | none =>
    have hnone : (is'.find? fun i => t i == some (IsMetaData.classname e)) = none := by
      rw [List.find?_eq_none] at hf ⊢
      exact fun i hi => hf i (hp.mem_iff.2 hi)
    rw [hnone]
  | some i =>
    have hi := List.mem_of_find?_eq_some hf
    have hti : t i = some (IsMetaData.classname e) := by simpa using List.find?_some hf
    cases hf' : is'.find? fun i => t i == some (IsMetaData.classname e) with
    | none =>
      rw [List.find?_eq_none] at hf'
      exact absurd ((hpred i).2 hti) (hf' i (hp.mem_iff.1 hi))
    | some j =>
      have hj := hp.mem_iff.2 (List.mem_of_find?_eq_some hf')
      have htj : t j = some (IsMetaData.classname e) := by simpa using List.find?_some hf'
      by_cases hij : i = j
      · rw [hij]
      · exfalso
        have hsymm : Std.Symm fun i j : InheritedMetaData => ∀ c, t i = some c → t j ≠ some c :=
          ⟨fun a b hab c hb ha => hab c ha hb⟩
        exact hone.forall hi hj hij _ hti htj

theorem map_applied_nil (t : InheritedMetaData → Option String) (l : List T) :
    l.map (applied t []) = l := List.map_id l

/-- The takeovers of a permuted list: nothing resolved in either order, or the same entries. -/
theorem resolveInherited_perm {H : Hierarchy String} {es es' : List T} {ws ws' : List W}
    {is is' : List InheritedMetaData} (he : es.Perm es') (hw : ws.Perm ws') (hi : is.Perm is')
    (his : ∀ i ∈ is, i.superClasses = H.chain i.classname)
    (hcond : (∃ i ∈ is, target es ws i = none) ∨ Unambiguous es ws is) :
    (∃ m m', resolveInherited is (es.map some) (ws.map some) = .error m ∧
      resolveInherited is' (es'.map some) (ws'.map some) = .error m') ∨
    ∃ (es₁ es₂ : List T) (ws₁ ws₂ : List W),
      resolveInherited is (es.map some) (ws.map some) = .ok (es₁.map some, ws₁.map some) ∧
      resolveInherited is' (es'.map some) (ws'.map some) = .ok (es₂.map some, ws₂.map some) ∧
      es₁.Perm es₂ ∧ ws₁.Perm ws₂ ∧ (∀ e ∈ es₁, Origin H is es e) ∧ ∀ w ∈ ws₁, Origin H is ws w := by
  have his' : ∀ i ∈ is', i.superClasses = H.chain i.classname := fun i h => his i (hi.mem_iff.2 h)
  by_cases hnone : ∃ i ∈ is, target es ws i = none
  · obtain ⟨i, hmem, ht⟩ := hnone
    obtain ⟨m, hm⟩ := resolveInherited_unresolved his ht is (fun _ h => h) hmem es ws
      (fun e h => Origin.self h) (fun w h => Origin.self h)
    have ht' : target es' ws' i = none := by rw [← target_perm he hw]; exact ht
    obtain ⟨m', hm'⟩ := resolveInherited_unresolved his' ht' is' (fun _ h => h) (hi.mem_iff.1 hmem)
      es' ws' (fun e h => Origin.self h) (fun w h => Origin.self h)
    exact Or.inl ⟨m, m', hm, hm'⟩
  · have hun := hcond.resolve_left hnone
    have hun' := hun.perm he hw hi
    have hres : ∀ i ∈ is, target es ws i ≠ none := fun i h ht => hnone ⟨i, h, ht⟩
    have hres' : ∀ i ∈ is', target es' ws' i ≠ none := fun i h => by
      rw [← target_perm he hw]
      exact hres i (hi.mem_iff.2 h)
    have h1 := resolveInherited_eq his hres hun is [] rfl
    have h2 := resolveInherited_eq his' hres' hun' is' [] rfl
    rw [map_applied_nil, map_applied_nil] at h1 h2
    have hE : ∀ l : List T, l.map (applied (aim es ws .extension) is) =
        l.map (applied (aim es' ws' .extension) is') := fun l => List.map_congr_left fun e _ => by
      rw [← aim_perm he hw, applied_perm (hun.one_taker .extension) hi]
    have hW : ∀ l : List W, l.map (applied (aim es ws .widget) is) =
        l.map (applied (aim es' ws' .widget) is') := fun l => List.map_congr_left fun w _ => by
      rw [← aim_perm he hw, applied_perm (hun.one_taker .widget) hi]
    refine Or.inr ⟨_, _, _, _, h1, h2, ?_, ?_, ?_, ?_⟩
    · rw [hE]; exact he.map _
    · rw [hW]; exact hw.map _
    · refine applied_origin (fun _ h => h) his fun i _ c hc => ?_
      rwa [aim_extension] at hc
    · exact applied_origin (fun _ h => h) his fun i _ c hc => (aim_widget_found hc).2

end

/-- With one entry for each class, only the targets matter. -/
theorem unambiguous_of_nodup {T W : Type} [IsMetaData T] [IsMetaData W] {es : List T} {ws : List W}
    {is : List InheritedMetaData} (he : (es.map IsMetaData.classname).Nodup)
    (hw : (ws.map IsMetaData.classname).Nodup)
    (hfresh : ∀ i ∈ is, present es i.classname = false ∧ present ws i.classname = false)
    (ht : (is.map (target es ws)).Nodup) : Unambiguous es ws is where
  targets := ht
  one_extension _ _ _ _ := (List.pairwise_map.1 he).imp fun hne h1 h2 => hne (h1.trans h2.symm)
  one_widget _ _ _ _ := (List.pairwise_map.1 hw).imp fun hne h1 h2 => hne (h1.trans h2.symm)
  takers i _ j hj s c hc hjc := by
    obtain ⟨hje, hjw⟩ := hfresh j hj
    rw [hjc] at hje hjw
    cases s with
    | extension =>
      have hf := aim_eq_some.2 hc
      rw [aim_extension] at hf
      simp [List.find?_some hf] at hje
    | widget =>
      have hf := (aim_widget_found (aim_eq_some.2 hc)).2
      simp [List.find?_some hf] at hjw

/-! ## What is left after `process` -/

/-- What is compared of a surviving entry: kind, name, class and methods. -/
inductive Survivor
  | extension (kind : ExtensionKind) (name classname : String) (methods : List Method)
  | widget (name classname : String) (methods : List String)
  deriving DecidableEq

def IExtensionMetaData.survivor (e : IExtensionMetaData) : Survivor :=
  .extension e.kind e.name e.classname e.methods

def WidgetMetaData.survivor (w : WidgetMetaData) : Survivor := .widget w.name w.classname w.methods

/-- Two calls both throw, or both return and leave the same entries. -/
def SameEnd (o o' : Outcome) (left left' : List Survivor) : Prop :=
  (o.result ≠ .ok () ∧ o'.result ≠ .ok ()) ∨
    (o.result = .ok () ∧ o'.result = .ok () ∧ ∀ s, s ∈ left ↔ s ∈ left')

namespace QuickAppMetaDataProcessor

/-- The entries that are registered; none after one of the early exits. -/
def left (sons : List MetaData) : List Survivor :=
  if (extensionsOf sons).isEmpty || (widgetsOf sons).isEmpty then []
  else
    match survivors (inheritedOf sons) (extensionsOf sons) (widgetsOf sons) with
    | .error _ => []
    | .ok (extensions, widgetList) =>
      extensions.map IExtensionMetaData.survivor ++ widgetList.map WidgetMetaData.survivor

/-- Nothing is processed, or some `InheritedMetaData` extends no listed class, or no two of them
find the same entry. -/
def OrderFree (sons : List MetaData) : Prop :=
  extensionsOf sons = [] ∨ widgetsOf sons = [] ∨
    (∃ i ∈ inheritedOf sons, target (extensionsOf sons) (widgetsOf sons) i = none) ∨
    Unambiguous (extensionsOf sons) (widgetsOf sons) (inheritedOf sons)

theorem sameEnd_of_orderFree {H : Hierarchy String} {sons sons' : List MetaData}
    (hp : sons.Perm sons') (h : OfHierarchy H sons) (hcond : OrderFree sons) :
    SameEnd (process sons) (process sons') (left sons) (left sons') := by
  have he : (extensionsOf sons).Perm (extensionsOf sons') := hp.filterMap _
  have hw : (widgetsOf sons).Perm (widgetsOf sons') := hp.filterMap _
  have hi : (inheritedOf sons).Perm (inheritedOf sons') := hp.filterMap _
  unfold process left
  by_cases hne : extensionsOf sons = []
  · have hne' : extensionsOf sons' = [] := List.nil_perm.1 (hne ▸ he)
    simp [hne, hne', SameEnd, Outcome.done]
  by_cases hnw : widgetsOf sons = []
  · have hnw' : widgetsOf sons' = [] := List.nil_perm.1 (hnw ▸ hw)
    simp [hnw, hnw', SameEnd, Outcome.done]
  have hne' : extensionsOf sons' ≠ [] := fun h0 => hne (List.perm_nil.1 (h0 ▸ he))
  have hnw' : widgetsOf sons' ≠ [] := fun h0 => hnw (List.perm_nil.1 (h0 ▸ hw))
  simp only [hne, hne', hnw, hnw', if_false, Bool.or_self, Bool.false_eq_true,
    List.isEmpty_eq_false_iff.2, ne_eq, not_false_eq_true, survivors]
  rcases resolveInherited_perm he hw hi h.inherited ((hcond.resolve_left hne).resolve_left hnw) with
    ⟨m, m', h1, h2⟩ | ⟨es₁, es₂, ws₁, ws₂, h1, h2, hes, hws, hoe, how⟩
  · simp [h1, h2, SameEnd]
  · have hce : ∀ e ∈ es₁, Consistent H e := fun e hmem =>
      (hoe e hmem).consistent h.extensions h.inherited
    have hcw : ∀ w ∈ ws₁, Consistent H w := fun w hmem =>
      (how w hmem).consistent h.widgets h.inherited
    have hce' : ∀ e ∈ es₂, Consistent H e := fun e hmem => hce e (hes.mem_iff.2 hmem)
    have hcw' : ∀ w ∈ ws₂, Consistent H w := fun w hmem => hcw w (hws.mem_iff.2 hmem)
    have hskip : SkipOk (some otherWidgetName) := skipOk_ne WidgetMetaData.name
    simp only [h1, h2, removeParent_map_some skipOk_otherName hce,
      removeParent_map_some skipOk_otherName hce',
      removeWidget_map_some hskip hcw, removeWidget_map_some hskip hcw', reduceOption_map_some]
    have hE := undominated_perm (guarded (some otherName) extendsB) hes
    have hW := undominated_perm (guarded (some otherWidgetName) deletesWidget) hws
    have hok := inject_ok_iff (undominated (guarded (some otherName) extendsB) es₁)
      (undominated (guarded (some otherWidgetName) deletesWidget) ws₁)
    have hok' := inject_ok_iff (undominated (guarded (some otherName) extendsB) es₂)
      (undominated (guarded (some otherWidgetName) deletesWidget) ws₂)
    have hiff : (∀ e ∈ undominated (guarded (some otherName) extendsB) es₁,
        (ExtensionMetaData.ofEntry e).validate = .ok ()) ↔
        ∀ e ∈ undominated (guarded (some otherName) extendsB) es₂,
          (ExtensionMetaData.ofEntry e).validate = .ok () := by
      simp only [hE.mem_iff]
    by_cases hv : ∀ e ∈ undominated (guarded (some otherName) extendsB) es₁,
        (ExtensionMetaData.ofEntry e).validate = .ok ()
    · refine Or.inr ⟨hok.2 hv, hok'.2 (hiff.1 hv), fun s => ?_⟩
      exact ((hE.map _).append (hW.map _)).mem_iff
    · exact Or.inl ⟨fun h0 => hv (hok.1 h0), fun h0 => hv (hiff.2 (hok'.1 h0))⟩

end QuickAppMetaDataProcessor

namespace GeminiMetaDataProcessor

/-- The entries that are registered. -/
def left (sons : List MetaData) : List Survivor :=
  match survivors (inheritedOf sons) (extensionsOf sons) with
  | .error _ => []
  | .ok extensions => extensions.map IExtensionMetaData.survivor

/-- As for the quick app, but the takeovers start from the leaves. -/
def OrderFree (sons : List MetaData) : Prop :=
  (∃ i ∈ inheritedOf sons, found (leaves (extensionsOf sons)) i = none) ∨
    Unambiguous (leaves (extensionsOf sons)) ([] : List IExtensionMetaData) (inheritedOf sons)

theorem sameEnd_of_orderFree {H : Hierarchy String} {sons sons' : List MetaData}
    (hp : sons.Perm sons') (h : OfHierarchy H sons) (hcond : OrderFree sons) :
    SameEnd (process sons) (process sons') (left sons) (left sons') := by
  have he : (extensionsOf sons).Perm (extensionsOf sons') := hp.filterMap _
  have hi : (inheritedOf sons).Perm (inheritedOf sons') := hp.filterMap _
  have hl : (leaves (extensionsOf sons)).Perm (leaves (extensionsOf sons')) :=
    undominated_perm _ he
  have h' : OfHierarchy H sons' :=
    ⟨fun e hmem => h.extensions e (he.mem_iff.2 hmem),
      fun w hmem => h.widgets w ((hp.filterMap _).mem_iff.2 hmem),
      fun i hmem => h.inherited i (hi.mem_iff.2 hmem)⟩
  have hcond' : (∃ i ∈ inheritedOf sons, target (leaves (extensionsOf sons))
        ([] : List IExtensionMetaData) i = none) ∨
      Unambiguous (leaves (extensionsOf sons)) ([] : List IExtensionMetaData)
        (inheritedOf sons) := by
    refine hcond.imp_left ?_
    rintro ⟨i, hmem, hf⟩
    refine ⟨i, hmem, ?_⟩
    have hno : found ([] : List IExtensionMetaData) i = none :=
      List.find?_eq_none.2 fun c _ => by simp [present]
    simp [target, hf, hno]
  unfold process left
  rw [survivors_eq h, survivors_eq h']
  rcases resolveInherited_perm hl (List.Perm.refl ([] : List IExtensionMetaData)) hi h.inherited
    hcond' with ⟨m, m', h1, h2⟩ | ⟨es₁, es₂, ws₁, ws₂, h1, h2, hes, -, hoe, -⟩
  · rw [List.map_nil] at h1 h2
    simp [h1, h2, SameEnd]
  · rw [List.map_nil] at h1 h2
    have hce : ∀ e ∈ es₁, Consistent H e := fun e hmem => (hoe e hmem).consistent
      (fun o ho => h.extensions o ((mem_undominated _).1 ho).1) h.inherited
    have hce' : ∀ e ∈ es₂, Consistent H e := fun e hmem => hce e (hes.mem_iff.2 hmem)
    have hE := undominated_perm (guarded (some otherName) extendsB) hes
    simp only [h1, h2, removeParent_map_some skipOk_otherName hce,
      removeParent_map_some skipOk_otherName hce', reduceOption_map_some]
    exact Or.inr ⟨rfl, rfl, fun s => (hE.map _).mem_iff⟩

end GeminiMetaDataProcessor

/-! ## Both processors -/

/-- **Every order of `sons` ends the same way**, unless two `InheritedMetaData` find the same
entry. -/
theorem process_scan_order {H : Hierarchy String} {sons sons' : List MetaData}
    (hp : sons.Perm sons') (h : OfHierarchy H sons) :
    (QuickAppMetaDataProcessor.OrderFree sons →
      SameEnd (QuickAppMetaDataProcessor.process sons) (QuickAppMetaDataProcessor.process sons')
        (QuickAppMetaDataProcessor.left sons) (QuickAppMetaDataProcessor.left sons')) ∧
    (GeminiMetaDataProcessor.OrderFree sons →
      SameEnd (GeminiMetaDataProcessor.process sons) (GeminiMetaDataProcessor.process sons')
        (GeminiMetaDataProcessor.left sons) (GeminiMetaDataProcessor.left sons')) :=
  ⟨QuickAppMetaDataProcessor.sameEnd_of_orderFree hp h,
    GeminiMetaDataProcessor.sameEnd_of_orderFree hp h⟩

/-- `I2` extends `I1`, which extends the annotated class `A`. -/
def chainOfTwo : Hierarchy String := .line ["I2", "I1", "A"] (by decide)

def featureA : MetaData := .extension ⟨.feature .USEABLE, "system.a", "A", [], []⟩
def widgetW : MetaData := .widget ⟨"w", "W", [], false, [], []⟩
def inheritedI1 : MetaData := .inherited ⟨"I1", ["A"]⟩
def inheritedI2 : MetaData := .inherited ⟨"I2", ["I1", "A"]⟩

theorem chainOfTwo_ofHierarchy (sons : List MetaData)
    (hsub : ∀ s ∈ sons, s ∈ [featureA, widgetW, inheritedI1, inheritedI2]) :
    OfHierarchy chainOfTwo sons where
  extensions e he := by
    obtain ⟨s, hs, hse⟩ := List.mem_filterMap.1 he
    have hmem := hsub s hs
    simp only [List.mem_cons, List.not_mem_nil, or_false] at hmem
    rcases hmem with rfl | rfl | rfl | rfl <;> cases hse
    all_goals rfl
  widgets w hw := by
    obtain ⟨s, hs, hse⟩ := List.mem_filterMap.1 hw
    have hmem := hsub s hs
    simp only [List.mem_cons, List.not_mem_nil, or_false] at hmem
    rcases hmem with rfl | rfl | rfl | rfl <;> cases hse
    all_goals rfl
  inherited i hi := by
    obtain ⟨s, hs, hse⟩ := List.mem_filterMap.1 hi
    have hmem := hsub s hs
    simp only [List.mem_cons, List.not_mem_nil, or_false] at hmem
    rcases hmem with rfl | rfl | rfl | rfl <;> cases hse
    all_goals rfl

/-- One taker: the orders agree. -/
theorem process_scan_order_single :
    [featureA, widgetW, inheritedI1].Perm [inheritedI1, featureA, widgetW] ∧
    OfHierarchy chainOfTwo [featureA, widgetW, inheritedI1] ∧
    SameEnd (QuickAppMetaDataProcessor.process [featureA, widgetW, inheritedI1])
      (QuickAppMetaDataProcessor.process [inheritedI1, featureA, widgetW])
      (QuickAppMetaDataProcessor.left [featureA, widgetW, inheritedI1])
      (QuickAppMetaDataProcessor.left [inheritedI1, featureA, widgetW]) ∧
    SameEnd (GeminiMetaDataProcessor.process [featureA, widgetW, inheritedI1])
      (GeminiMetaDataProcessor.process [inheritedI1, featureA, widgetW])
      (GeminiMetaDataProcessor.left [featureA, widgetW, inheritedI1])
      (GeminiMetaDataProcessor.left [inheritedI1, featureA, widgetW]) := by
  have hp : [featureA, widgetW, inheritedI1].Perm [inheritedI1, featureA, widgetW] := by decide
  have h := chainOfTwo_ofHierarchy [featureA, widgetW, inheritedI1] (by simp)
  obtain ⟨hq, hg⟩ := process_scan_order hp h
  refine ⟨hp, h, hq (Or.inr (Or.inr (Or.inr ?_))), hg (Or.inr ?_)⟩
  · exact unambiguous_of_nodup (by decide) (by decide) (by decide) (by decide)
  · exact unambiguous_of_nodup (by decide) (by decide) (by decide) (by decide)

/-- **A chain of two**: fine when `I1` comes first, no entry left for `I1` when `I2` does. -/
theorem quickApp_scan_order_fails : ¬ ∀ (H : Hierarchy String) (sons sons' : List MetaData),
    sons.Perm sons' → OfHierarchy H sons →
      SameEnd (QuickAppMetaDataProcessor.process sons) (QuickAppMetaDataProcessor.process sons')
        (QuickAppMetaDataProcessor.left sons) (QuickAppMetaDataProcessor.left sons') := by
  intro hall
  have hend := hall chainOfTwo [featureA, widgetW, inheritedI1, inheritedI2]
    [featureA, widgetW, inheritedI2, inheritedI1] (by decide)
    (chainOfTwo_ofHierarchy _ (by simp))
  have hok : (QuickAppMetaDataProcessor.process
    [featureA, widgetW, inheritedI1, inheritedI2]).result = .ok () := by rfl
  have herr : (QuickAppMetaDataProcessor.process
      [featureA, widgetW, inheritedI2, inheritedI1]).result =
    .error (.runtime "Fail to resolve inherited: I1") := by rfl
  rcases hend with ⟨h1, -⟩ | ⟨-, h2, -⟩
  · exact h1 hok
  · simp [herr] at h2

end HybridStack.Pisces
