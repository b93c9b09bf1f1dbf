import HybridStack.Pisces.Processors

/-!
# Takeovers by `@WebInherited` classes

`GeminiMetaDataProcessor.process` prunes, lets every `InheritedMetaData` take over an entry, and
prunes again. Through the takeovers every entry stays an original or a taker's (`Origin`) and every
taker that has had its turn stays covered; the second pass deletes an entry only when one of its
subclasses is left (`exists_undominated`).

- **`web_takeover`**: after a normal return the list that is injected, `survivors`, has an entry of
  the class of every `InheritedMetaData` or below it, and every entry of it is an original one, where
  it was or moved down to a taker.
-/

namespace HybridStack.Pisces

open Ancestry (Hierarchy)
open Sweep

/-- The superclasses of every entry of `sons` are its ancestors in `H`. -/
structure OfHierarchy (H : Hierarchy String) (sons : List MetaData) : Prop where
  extensions : ∀ e ∈ extensionsOf sons, Consistent H e
  widgets : ∀ w ∈ widgetsOf sons, Consistent H w
  inherited : ∀ i ∈ inheritedOf sons, i.superClasses = H.chain i.classname

theorem skipOk_otherName : SkipOk (some otherName) := skipOk_ne IExtensionMetaData.name

theorem reduceOption_map_some {β : Type} (l : List β) : (l.map some).reduceOption = l := by
  simp [List.reduceOption]

/-- `removeParent` on a list without nulls. -/
theorem removeParent_map_some {T : Type} [IsMetaData T] {H : Hierarchy String}
    {skip : Option (T → T → Bool)} (hs : SkipOk skip) {l : List T} (hl : ∀ e ∈ l, Consistent H e) :
    removeParent skip (l.map some) = (undominated (guarded skip extendsB) l).map some := by
  have hl' : ∀ e ∈ (l.map some).reduceOption, Consistent H e := by
    simpa [reduceOption_map_some] using hl
  rw [removeParent_eq hs hl', reduceOption_map_some]

/-- `removeWidgetParent` on a list without nulls. -/
theorem removeWidget_map_some {H : Hierarchy String}
    {skip : Option (WidgetMetaData → WidgetMetaData → Bool)} (hs : SkipOk skip)
    {l : List WidgetMetaData} (hl : ∀ w ∈ l, Consistent H w) :
    remove skip widgetDeleteCondition (l.map some) =
      (undominated (guarded skip deletesWidget) l).map some := by
  have hl' : ∀ w ∈ (l.map some).reduceOption, Consistent H w := by
    simpa [reduceOption_map_some] using hl
  rw [removeWidget_eq hs hl', reduceOption_map_some]

/-- What is pruned leaves an entry of its class or below. -/
theorem undominated_covers {T : Type} [IsMetaData T] {H : Hierarchy String}
    {skip : Option (T → T → Bool)} (hs : SkipOk skip) {l : List T} (hl : ∀ e ∈ l, Consistent H e)
    {b : String} {e : T} (he : e ∈ l) (hbe : H.IsAncestorOrSelf b (IsMetaData.classname e)) :
    ∃ x ∈ undominated (guarded skip extendsB) l, H.IsAncestorOrSelf b (IsMetaData.classname x) := by
  by_cases hd : Dominated (guarded skip extendsB) l e
  · obtain ⟨x, hx, hxe⟩ := (strictOn_extends hs hl).exists_undominated he hd
    have hxl := ((mem_undominated _).1 hx).1
    have hmem := (extendsB_iff (hl x hxl)).1 (guarded_iff.1 hxe).2
    exact ⟨x, hx, hbe.trans H (Or.inr hmem)⟩
  · exact ⟨e, (mem_undominated _).2 ⟨he, hd⟩, hbe⟩

namespace GeminiMetaDataProcessor

variable {H : Hierarchy String} {sons : List MetaData}

/-- The entries the takeovers start from. -/
def leaves (extensions : List IExtensionMetaData) : List IExtensionMetaData :=
  undominated (guarded (some otherName) extendsB) extensions

/-- `survivors` as a run of takeovers between two prunings. -/
theorem survivors_eq (h : OfHierarchy H sons) :
    survivors (inheritedOf sons) (extensionsOf sons) =
      match resolveInherited (inheritedOf sons) ((leaves (extensionsOf sons)).map some)
        ([] : List (Option IExtensionMetaData)) with
      | .error message => .error (.runtime message)
      | .ok (es, _) => .ok (removeParent (some otherName) es).reduceOption := by
  rw [survivors, removeParent_map_some skipOk_otherName h.extensions, resolveWebInherited_eq]
  unfold leaves
  cases resolveInherited (inheritedOf sons) (List.map some (undominated
    (guarded (some otherName) extendsB) (extensionsOf sons))) ([] : List (Option IExtensionMetaData))
  <;> rfl

/-- **After a normal return no takeover is lost and none is misapplied.** -/
theorem web_takeover (h : OfHierarchy H sons) (hok : (process sons).result = .ok ()) :
    ∃ entries, survivors (inheritedOf sons) (extensionsOf sons) = .ok entries ∧
      process sons = .done (injectMetaData extensionSource entries "initFeatureMetaData") ∧
      (∀ i ∈ inheritedOf sons, ∃ e ∈ entries, H.IsAncestorOrSelf i.classname e.classname) ∧
      ∀ e ∈ entries, e.superClasses = H.chain e.classname ∧
        ∃ o ∈ extensionsOf sons, e.name = o.name ∧ e.methods = o.methods ∧
          (e.classname = o.classname ∨
            ∃ i ∈ inheritedOf sons, e.classname = i.classname ∧ o.classname ∈ H.chain i.classname) := by
  unfold process at hok ⊢
  rw [survivors_eq h] at hok ⊢
  cases hres : resolveInherited (inheritedOf sons) ((leaves (extensionsOf sons)).map some)
      ([] : List (Option IExtensionMetaData)) with
  | error message => simp [hres] at hok
  | ok lists =>
  obtain ⟨es₂, ws₂⟩ := lists
  have hleaf : ∀ e ∈ leaves (extensionsOf sons), e ∈ extensionsOf sons := fun e he =>
    ((mem_undominated _).1 he).1
  have hempty : ∀ w ∈ ([] : List IExtensionMetaData),
      Origin H (inheritedOf sons) ([] : List IExtensionMetaData) w := by simp
  obtain ⟨es', ws', rfl, -, horigin, hws, hcov⟩ := resolveInherited_inv h.inherited
    (inheritedOf sons) [] rfl (leaves (extensionsOf sons)) []
    (fun e he => Origin.self he) hempty (by simp) es₂ ws₂ hres
  have hcons : ∀ e ∈ es', Consistent H e := fun e he =>
    (horigin e he).consistent (fun o ho => h.extensions o (hleaf o ho)) h.inherited
  simp only [removeParent_map_some skipOk_otherName hcons, reduceOption_map_some]
  refine ⟨_, rfl, rfl, fun i hi => ?_, fun e he => ?_⟩
  · -- the entry that covered `i` after the takeovers, or what the last pass left of it
    have hnone : ∀ w ∈ ws', False := fun w hw => by
      obtain ⟨o, ho, -⟩ := hws w hw
      simp at ho
    rcases hcov i hi with ⟨e, he, hie⟩ | ⟨w, hw, -⟩
    · exact undominated_covers skipOk_otherName hcons he hie
    · exact (hnone w hw).elim
  · have hmem : e ∈ es' := ((mem_undominated _).1 he).1
    refine ⟨hcons e hmem, ?_⟩
    rcases horigin e hmem with ⟨o, ho, rfl | ⟨i, hi, hoi, rfl⟩⟩
    · exact ⟨e, hleaf e ho, rfl, rfl, Or.inl rfl⟩
    · exact ⟨o, hleaf o ho, rfl, rfl, Or.inr ⟨i, hi, rfl, hoi⟩⟩

/-- The class `A` and the `@WebInherited` class `I` below it. -/
def takenOver : List MetaData :=
  [.extension ⟨.webFeature, "system.a", "A", [], []⟩, .inherited ⟨"I", ["A"]⟩]

theorem web_takeover_takenOver :
    OfHierarchy (.line ["I", "A"] (by decide)) takenOver ∧ (process takenOver).result = .ok () ∧
    ∃ entries, survivors (inheritedOf takenOver) (extensionsOf takenOver) = .ok entries ∧
      process takenOver = .done (injectMetaData extensionSource entries "initFeatureMetaData") ∧
      (∀ i ∈ inheritedOf takenOver, ∃ e ∈ entries,
        (Hierarchy.line ["I", "A"] (by decide)).IsAncestorOrSelf i.classname e.classname) ∧
      ∀ e ∈ entries, e.superClasses = (Hierarchy.line ["I", "A"] (by decide)).chain e.classname ∧
        ∃ o ∈ extensionsOf takenOver, e.name = o.name ∧ e.methods = o.methods ∧
          (e.classname = o.classname ∨ ∃ i ∈ inheritedOf takenOver, e.classname = i.classname ∧
            o.classname ∈ (Hierarchy.line ["I", "A"] (by decide)).chain i.classname) := by
  have h : OfHierarchy (.line ["I", "A"] (by decide)) takenOver :=
    ⟨by simp [takenOver, extensionsOf, MetaData.extension?]; rfl,
      by simp [takenOver, widgetsOf, MetaData.widget?],
      by simp [takenOver, inheritedOf, MetaData.inherited?]; rfl⟩
  have hok : (process takenOver).result = .ok () := by rfl
  exact ⟨h, hok, web_takeover h hok⟩

end GeminiMetaDataProcessor

end HybridStack.Pisces
