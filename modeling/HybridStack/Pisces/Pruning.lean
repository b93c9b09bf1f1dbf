import HybridStack.Pisces.WebTakeover

/-!
# What pruning keeps

`Remove` has the loops down to a sweep by a strict order. Here is what that comes to for the calls
the processors make: `removeParent` without a `skip` (EventTargetProcessor, DependencyProcessor) or
with `item.name != other.name` (the two metadata processors), and `remove` with the widget condition
(QuickAppMetaDataProcessor.kt:109-118).

- **`removeParent_leaves`**: the leaves stay, in order and multiplicity, for every order of the list
  alike; every entry has a survivor of its class or below it; a second pass changes nothing.
- **`groups_lost`**: without a `skip`, a name can be left with no entry.
- **`widgets_pruned`**: a widget goes exactly where a flagged widget of its name extends it, whatever
  becomes of that one and whatever lies between.
-/

namespace HybridStack.Pisces

open Ancestry (Hierarchy)
open Sweep

/-! ## `removeParent` -/

section
variable {T : Type}

/-- The `skip` of a call: none, or "the names differ". -/
inductive CallSkip (name : T → String) : Option (T → T → Bool) → Prop
  | absent : CallSkip name none
  | names : CallSkip name (some fun item other => name item != name other)

theorem CallSkip.ok {name : T → String} {skip : Option (T → T → Bool)} (h : CallSkip name skip) :
    SkipOk skip := by
  cases h with
  | absent => exact skipOk_none
  | names => exact skipOk_ne name

variable [IsMetaData T]

/-- Some entry of `l` that is not skipped against `e` extends it. -/
def ExtendedIn (skip : Option (T → T → Bool)) (l : List T) (e : T) : Prop :=
  ∃ e' ∈ l, skips skip e' e = false ∧ IsMetaData.classname e ∈ IsMetaData.superClasses e'

instance (skip : Option (T → T → Bool)) (l : List T) : DecidablePred (ExtendedIn skip l) := fun e =>
  inferInstanceAs (Decidable
    (∃ e' ∈ l, skips skip e' e = false ∧ IsMetaData.classname e ∈ IsMetaData.superClasses e'))

theorem dominated_iff_extendedIn {skip : Option (T → T → Bool)} {l : List T} {e : T} :
    Dominated (guarded skip extendsB) l e ↔ ExtendedIn skip l e := by
  simp only [Dominated, ExtendedIn, guarded_iff, extendsB, List.contains_iff_mem]

theorem undominated_eq_filter (skip : Option (T → T → Bool)) (l : List T) :
    undominated (guarded skip extendsB) l = l.filter fun e => ¬ ExtendedIn skip l e :=
  List.filter_congr fun e _ => by simp only [dominated_iff_extendedIn]

variable {H : Hierarchy String} {skip : Option (T → T → Bool)}

/-- Every entry has a survivor that is it or extends it, and that it is not skipped against. -/
theorem exists_survivor (hs : SkipOk skip) {l : List T} (hl : ∀ e ∈ l, Consistent H e) {e : T}
    (he : e ∈ l) : ∃ x ∈ undominated (guarded skip extendsB) l,
      x = e ∨ skips skip x e = false ∧ IsMetaData.classname e ∈ IsMetaData.superClasses x := by
  by_cases hd : Dominated (guarded skip extendsB) l e
  · obtain ⟨x, hx, hxe⟩ := (strictOn_extends hs hl).exists_undominated he hd
    rw [guarded_iff, extendsB, List.contains_iff_mem] at hxe
    exact ⟨x, hx, Or.inr hxe⟩
  · exact ⟨e, (mem_undominated _).2 ⟨he, hd⟩, Or.inl rfl⟩

/-- What is left has nothing more to lose. -/
theorem undominated_undominated {α : Type} (dom : α → α → Bool) (l : List α) :
    undominated dom (undominated dom l) = undominated dom l := by
  refine List.filter_eq_self.2 fun e he => ?_
  obtain ⟨-, hd⟩ := (mem_undominated dom).1 he
  simp only [decide_not, Bool.not_eq_true', decide_eq_false_iff_not]
  rintro ⟨x, hx, hxe⟩
  exact hd ⟨x, ((mem_undominated dom).1 hx).1, hxe⟩

/-- **`removeParent` keeps exactly the leaves.** -/
theorem removeParent_leaves {name : T → String} (hskip : CallSkip name skip) {xs : List (Option T)}
    (hxs : ∀ e ∈ xs.reduceOption, Consistent H e) :
    removeParent skip xs =
      (xs.reduceOption.filter fun e => ¬ ExtendedIn skip xs.reduceOption e).map some ∧
    (∀ ys, xs.Perm ys → (removeParent skip xs).Perm (removeParent skip ys)) ∧
    (∀ e ∈ xs.reduceOption, ∃ x, some x ∈ removeParent skip xs ∧
      (x = e ∨ IsMetaData.classname e ∈ IsMetaData.superClasses x) ∧
      (skip.isSome → name x = name e)) ∧
    removeParent skip (removeParent skip xs) = removeParent skip xs := by
  have hs := hskip.ok
  refine ⟨?_, fun ys hp => ?_, fun e he => ?_, ?_⟩
  · rw [removeParent_eq hs hxs, undominated_eq_filter]
  · have hlive : xs.reduceOption.Perm ys.reduceOption := hp.filterMap id
    have hys : ∀ e ∈ ys.reduceOption, Consistent H e := fun e he => hxs e (hlive.mem_iff.2 he)
    rw [removeParent_eq hs hxs, removeParent_eq hs hys]
    exact (undominated_perm _ hlive).map some
  · obtain ⟨x, hx, hxe⟩ := exists_survivor hs hxs he
    refine ⟨x, ?_, hxe.imp_right And.right, fun hsome => ?_⟩
    · rw [removeParent_eq hs hxs]
      exact List.mem_map_of_mem hx
    · rcases hxe with rfl | ⟨hne, -⟩
      · rfl
      · cases hskip with
        | absent => simp at hsome
        | names => simpa [skips] using hne
  · have hleft : ∀ e ∈ undominated (guarded skip extendsB) xs.reduceOption, Consistent H e :=
      fun e he => hxs e ((mem_undominated _).1 he).1
    rw [removeParent_eq hs hxs, removeParent_map_some hs hleft, undominated_undominated]

end

theorem nodup_namesBA : ["B", "A"].Nodup := by decide

/-- `A` and its subclass `B`. -/
def hierarchyBA : Hierarchy String := .line ["B", "A"] nodup_namesBA

/-- A feature of this name by this class. -/
def featureOf (name classname : String) (superClasses : List String) : IExtensionMetaData :=
  ⟨.feature .FORBIDDEN, name, classname, superClasses, []⟩

theorem removeParent_leaves_pair :
    (∀ e ∈ [none, some (featureOf "n" "A" []), some (featureOf "n" "B" ["A"])].reduceOption,
      Consistent hierarchyBA e) ∧
    ∃ x, some x ∈ removeParent (some fun item other => item.name != other.name)
        [none, some (featureOf "n" "A" []), some (featureOf "n" "B" ["A"])] ∧
      (x = featureOf "n" "A" [] ∨ "A" ∈ x.superClasses) ∧ x.name = "n" := by
  have h : ∀ e ∈ [none, some (featureOf "n" "A" []), some (featureOf "n" "B" ["A"])].reduceOption,
      Consistent hierarchyBA e := by
    simp only [List.reduceOption_cons_of_none, List.reduceOption_cons_of_some,
      List.reduceOption_nil, List.forall_mem_cons]
    exact ⟨rfl, rfl, by simp⟩
  have hskip : CallSkip IExtensionMetaData.name (some fun item other => item.name != other.name) :=
    .names
  obtain ⟨x, hx, hor, hname⟩ :=
    (removeParent_leaves hskip h).2.2.1 (featureOf "n" "A" []) (by simp)
  exact ⟨h, x, hx, hor, hname rfl⟩

/-- **Without a `skip` a name can go altogether**: the feature `a` is dropped for its subclass, which
is the feature `b`. -/
theorem groups_lost : ¬ ∀ (H : Hierarchy String)
    (skip : Option (IExtensionMetaData → IExtensionMetaData → Bool))
    (xs : List (Option IExtensionMetaData)), CallSkip IExtensionMetaData.name skip →
      (∀ e ∈ xs.reduceOption, Consistent H e) →
      ∀ e ∈ xs.reduceOption, ∃ x, some x ∈ removeParent skip xs ∧ x.name = e.name := by
  intro h
  have hc : ∀ e ∈ [some (featureOf "a" "A" []), some (featureOf "b" "B" ["A"])].reduceOption,
      Consistent hierarchyBA e := by
    simp only [List.reduceOption_cons_of_some, List.reduceOption_nil, List.forall_mem_cons]
    exact ⟨rfl, rfl, by simp⟩
  obtain ⟨x, hx, hname⟩ := h hierarchyBA none _ .absent hc (featureOf "a" "A" []) (by simp)
  have hleft : removeParent none [some (featureOf "a" "A" []), some (featureOf "b" "B" ["A"])] =
      [some (featureOf "b" "B" ["A"])] := by decide
  rw [hleft, List.mem_singleton, Option.some.injEq] at hx
  subst hx
  exact absurd hname (by decide)

/-! ## Widgets -/

namespace QuickAppMetaDataProcessor

/-- A flagged widget of the same name extends `e`. -/
def DeletedIn (ws : List WidgetMetaData) (e : WidgetMetaData) : Prop :=
  ∃ w ∈ ws, w.name = e.name ∧ e.classname ∈ w.superClasses ∧ w.needDeleteSuperClasses = true

instance (ws : List WidgetMetaData) : DecidablePred (DeletedIn ws) := fun e =>
  inferInstanceAs (Decidable (∃ w ∈ ws,
    w.name = e.name ∧ e.classname ∈ w.superClasses ∧ w.needDeleteSuperClasses = true))

theorem dominated_iff_deletedIn {ws : List WidgetMetaData} {e : WidgetMetaData} :
    Dominated (guarded (some otherWidgetName) deletesWidget) ws e ↔ DeletedIn ws e := by
  simp [Dominated, DeletedIn, guarded, skips, otherWidgetName, deletesWidget]

theorem remove_widgets {H : Hierarchy String} {ws : List WidgetMetaData}
    (h : ∀ w ∈ ws, Consistent H w) :
    remove (some otherWidgetName) widgetDeleteCondition (ws.map some) =
      (ws.filter fun e => ¬ DeletedIn ws e).map some := by
  have hs : SkipOk (some otherWidgetName) := skipOk_ne WidgetMetaData.name
  rw [removeWidget_map_some hs h]
  congr 1
  exact List.filter_congr fun e _ => by simp only [dominated_iff_deletedIn]

/-- Where the widgets of `remove` come from: as declared, or taken over and flagged. -/
theorem taken_widgets {H : Hierarchy String} {sons : List MetaData} (h : OfHierarchy H sons)
    {es : List (Option IExtensionMetaData)} {ws : List (Option WidgetMetaData)}
    (hok : resolveInherited (inheritedOf sons) ((extensionsOf sons).map some)
      ((widgetsOf sons).map some) = .ok (es, ws)) :
    ∃ ws' : List WidgetMetaData, ws = ws'.map some ∧
      ∀ w ∈ ws', Origin H (inheritedOf sons) (widgetsOf sons) w := by
  obtain ⟨-, ws', -, hws, -, how, -⟩ := resolveInherited_inv h.inherited (inheritedOf sons) [] rfl
    (extensionsOf sons) (widgetsOf sons) (fun _ he => .self he) (fun _ hw => .self hw)
    (by simp) es ws hok
  exact ⟨ws', hws, how⟩

/-- **Widget pruning honours the flags**: on every list of widgets of one hierarchy, whatever their
flags; and so on the list `process` has after the takeovers, where each widget has its declared flag
or, taken over, is flagged. -/
theorem widgets_pruned (H : Hierarchy String) :
    (∀ ws : List WidgetMetaData, (∀ w ∈ ws, Consistent H w) →
      remove (some otherWidgetName) widgetDeleteCondition (ws.map some) =
        (ws.filter fun e => ¬ DeletedIn ws e).map some) ∧
    ∀ (sons : List MetaData) (es : List (Option IExtensionMetaData))
      (ws : List (Option WidgetMetaData)),
      OfHierarchy H sons →
      resolveInherited (inheritedOf sons) ((extensionsOf sons).map some)
        ((widgetsOf sons).map some) = .ok (es, ws) →
      ∃ ws' : List WidgetMetaData, ws = ws'.map some ∧
        (∀ w ∈ ws', w ∈ widgetsOf sons ∨ w.needDeleteSuperClasses = true ∧
          ∃ o ∈ widgetsOf sons, ∃ i ∈ inheritedOf sons, w = takeOver o i) ∧
        survivors (inheritedOf sons) (extensionsOf sons) (widgetsOf sons) =
          .ok ((removeParent (some otherName) es).reduceOption,
            ws'.filter fun e => ¬ DeletedIn ws' e) := by
  refine ⟨fun ws h => remove_widgets h, fun sons es ws h hok => ?_⟩
  obtain ⟨ws', hws, how⟩ := taken_widgets h hok
  have hcons : ∀ w ∈ ws', Consistent H w := fun w hw => (how w hw).consistent h.widgets h.inherited
  refine ⟨ws', hws, fun w hw => ?_, ?_⟩
  · rcases how w hw with ⟨o, ho, rfl | ⟨i, hi, -, rfl⟩⟩
    · exact Or.inl ho
    · exact Or.inr ⟨rfl, o, ho, i, hi, rfl⟩
  · rw [survivors, hok, hws]
    simp only [remove_widgets hcons, reduceOption_map_some]

/-- `C` extends `B` extends `A`. -/
def hierarchyCBA : Hierarchy String := .line ["C", "B", "A"] (by decide)

/-- A widget `w` by this class. -/
def widgetOf (classname : String) (superClasses : List String) (flag : Bool) : WidgetMetaData :=
  ⟨"w", classname, superClasses, flag, [], []⟩

/-- The widget of `B` is taken over by `C`. -/
def takenOverSons : List MetaData :=
  [.extension (featureOf "n" "E" []), .widget (widgetOf "A" [] false),
    .widget (widgetOf "B" ["A"] false), .inherited ⟨"C", ["B", "A"]⟩]

/-- `C` is flagged, `B` between is not: both `B` and `A` go. And a takeover flags `C` itself. -/
theorem widgets_pruned_chain :
    ((∀ w ∈ [widgetOf "A" [] false, widgetOf "B" ["A"] false, widgetOf "C" ["B", "A"] true],
        Consistent hierarchyCBA w) ∧
      remove (some otherWidgetName) widgetDeleteCondition
          ([widgetOf "A" [] false, widgetOf "B" ["A"] false, widgetOf "C" ["B", "A"] true].map some) =
        [some (widgetOf "C" ["B", "A"] true)]) ∧
    OfHierarchy hierarchyCBA takenOverSons ∧
    ∃ ws : List WidgetMetaData,
      [some (widgetOf "A" [] false), some (widgetOf "C" ["B", "A"] true)] = ws.map some ∧
      survivors (inheritedOf takenOverSons) (extensionsOf takenOverSons) (widgetsOf takenOverSons) =
        .ok ([featureOf "n" "E" []], ws.filter fun e => ¬ DeletedIn ws e) := by
  have h : ∀ w ∈ [widgetOf "A" [] false, widgetOf "B" ["A"] false, widgetOf "C" ["B", "A"] true],
      Consistent hierarchyCBA w := by
    simp only [List.forall_mem_cons]
    exact ⟨rfl, rfl, rfl, by simp⟩
  have hsons : OfHierarchy hierarchyCBA takenOverSons :=
    ⟨by simp [takenOverSons, extensionsOf, MetaData.extension?]; rfl,
      by
        show ∀ w ∈ [widgetOf "A" [] false, widgetOf "B" ["A"] false], Consistent hierarchyCBA w
        simp only [List.forall_mem_cons]
        exact ⟨rfl, rfl, by simp⟩,
      by simp [takenOverSons, inheritedOf, MetaData.inherited?]; rfl⟩
  obtain ⟨hlist, hprocess⟩ := widgets_pruned hierarchyCBA
  obtain ⟨ws, hws, -, hsurv⟩ := hprocess takenOverSons [some (featureOf "n" "E" [])]
    [some (widgetOf "A" [] false), some (widgetOf "C" ["B", "A"] true)] hsons rfl
  refine ⟨⟨h, ?_⟩, hsons, ws, hws, hsurv⟩
  rw [hlist _ h]
  decide

end QuickAppMetaDataProcessor

end HybridStack.Pisces
