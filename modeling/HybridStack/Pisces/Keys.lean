import HybridStack.Pisces.WebTakeover

/-!
# Keys and events

`DependencyProcessor` and `EventTargetProcessor` prune by inheritance alone: where the other two
processors compare entries of one name only (QuickAppMetaDataProcessor.kt:106-108), these pass no
`skip`. An entry that is extended is dropped with its key even when no subclass declares that key.

- `mem_putKeys_dependency`, `mem_putKeys_event`: the keys of the emitted `put` statements.
- **`keys_kept_iff`**: no declared key is lost if and only if each is declared by an entry that no
  listed class extends.
-/

namespace HybridStack.Pisces

open Ancestry (Hierarchy)
open JavaSource
open Sweep

/-! ## `put` statements -/

/-- The key of `….put("key", x);`. -/
def putKey : Stmt → Option String
  | .call target [.str key, .name _] =>
    if target.tail.getLast? = some "put" then some key else none
  | _ => none

variable (U : UnicodeIdent)

/-- The keys put by the emitted statements. -/
def Outcome.putKeys (o : Outcome) : List String :=
  o.injected.flatMap fun
    | .insertAfter _ src => ((src.stmts U).getD []).filterMap putKey
    | .insertJSON _ _ => []

/-- Some listed class extends `e`. -/
def Extended {T : Type} [IsMetaData T] (sons : List T) (e : T) : Prop :=
  ∃ f ∈ sons, IsMetaData.classname e ∈ IsMetaData.superClasses f

instance {T : Type} [IsMetaData T] (sons : List T) : DecidablePred (Extended sons) := fun e =>
  inferInstanceAs (Decidable (∃ f ∈ sons, IsMetaData.classname e ∈ IsMetaData.superClasses f))

/-- Without a `skip`, what no listed class extends is left. -/
theorem mem_removeParent_none {T : Type} [IsMetaData T] {H : Hierarchy String} {sons : List T}
    (h : ∀ e ∈ sons, Consistent H e) {e : T} :
    e ∈ (removeParent none (sons.map some)).reduceOption ↔ e ∈ sons ∧ ¬ Extended sons e := by
  rw [removeParent_map_some skipOk_none h, reduceOption_map_some, mem_undominated]
  refine and_congr_right fun _ => not_congr ?_
  simp [Dominated, Extended, guarded, skips, extendsB]

/-! ## DependencyProcessor -/

namespace DependencyProcessor

theorem putKeys_statements : ∀ deps : List DependencyMetaData,
    (deps.flatMap dependencyEntryStmts).filterMap putKey = deps.map DependencyMetaData.key
  | [] => rfl
  | d :: deps => by
    rw [List.flatMap_cons, List.filterMap_append, putKeys_statements deps]
    rfl

theorem putKeys_process (sons : List DependencyMetaData) : (process sons).putKeys U =
    ((removeParent none (sons.map some)).reduceOption).map DependencyMetaData.key := by
  unfold process
  cases h : (removeParent none (sons.map some)).reduceOption with
  | nil => rfl
  | cons d deps =>
    have hst : ((dependencySource (d :: deps)).stmts U).getD [] = dependencyStmts (d :: deps) := by
      rw [dependencySource_stmts]
      rfl
    simp only [List.isEmpty_cons, Bool.false_eq_true, if_false, Outcome.done, Outcome.putKeys,
      List.flatMap_cons, List.flatMap_nil, List.append_nil, hst]
    exact putKeys_statements (d :: deps)

theorem mem_putKeys {H : Hierarchy String} {sons : List DependencyMetaData}
    (h : ∀ e ∈ sons, Consistent H e) {key : String} :
    key ∈ (process sons).putKeys U ↔ ∃ f ∈ sons, f.key = key ∧ ¬ Extended sons f := by
  rw [putKeys_process, List.mem_map]
  simp only [mem_removeParent_none h]
  constructor
  · rintro ⟨f, ⟨hf, hx⟩, hk⟩
    exact ⟨f, hf, hk, hx⟩
  · rintro ⟨f, hf, hk, hx⟩
    exact ⟨f, ⟨hf, hx⟩, hk⟩

end DependencyProcessor

/-! ## EventTargetProcessor -/

namespace EventTargetProcessor

/-- The targets of one event, once for each time they name it. -/
def targetsOf (eventTargets : List EventTargetMetaData) (event : String) :
    List EventTargetMetaData :=
  eventTargets.flatMap fun et => (et.eventNames.filter fun e => e = event).map fun _ => et

/-- The map holds these targets and no empty list. -/
def Holds (map : LinkedMap String (List EventTargetMetaData))
    (f : String → List EventTargetMetaData) : Prop :=
  ∀ event, map.get event = if f event = [] then none else some (f event)

theorem Holds.addTarget {map : LinkedMap String (List EventTargetMetaData)}
    {f : String → List EventTargetMetaData} (h : Holds map f) (et : EventTargetMetaData)
    (event : String) : Holds (addTarget map et event)
      fun e => f e ++ (if event = e then [et] else []) := by
  intro e
  rw [EventTargetProcessor.addTarget, LinkedMap.get_put]
  by_cases he : e = event
  · subst he
    by_cases hf : f e = [] <;> simp [h e, hf]
  · simp [he, Ne.symm he, h e]

theorem Holds.addTargets (et : EventTargetMetaData) : ∀ (events : List String)
    {map : LinkedMap String (List EventTargetMetaData)} {f : String → List EventTargetMetaData},
    Holds map f → Holds (events.foldl (fun m e => EventTargetProcessor.addTarget m et e) map)
      fun e => f e ++ (events.filter fun x => x = e).map fun _ => et
  | [], map, f, h => by simpa using h
  | event :: events, map, f, h => by
    have ih := Holds.addTargets et events (h.addTarget et event)
    intro e
    rw [List.foldl_cons, ih e]
    by_cases he : event = e <;> simp [he]

theorem holds_allEventTargetMap (ets : List EventTargetMetaData) :
    Holds (allEventTargetMap ets) (targetsOf ets) := by
  have hrun : ∀ (ets : List EventTargetMetaData)
      (map : LinkedMap String (List EventTargetMetaData)) (f : String → List EventTargetMetaData),
      Holds map f → Holds (ets.foldl (fun map et =>
        et.eventNames.foldl (fun map event => addTarget map et event) map) map)
          fun e => f e ++ targetsOf ets e := by
    intro ets
    induction ets with
    | nil => intro map f h; simpa [targetsOf] using h
    | cons et ets ih =>
      intro map f h e
      rw [List.foldl_cons, ih _ _ (h.addTargets et et.eventNames) e]
      simp [targetsOf]
  simpa [allEventTargetMap] using hrun ets .empty (fun _ => []) fun e => by simp

theorem mem_targetsOf {ets : List EventTargetMetaData} {event : String} {et : EventTargetMetaData} :
    et ∈ targetsOf ets event ↔ et ∈ ets ∧ event ∈ et.eventNames := by
  simp only [targetsOf, List.mem_flatMap, List.mem_map, List.mem_filter, decide_eq_true_eq]
  constructor
  · rintro ⟨t, ht, e, ⟨he, rfl⟩, rfl⟩
    exact ⟨ht, he⟩
  · rintro ⟨ht, he⟩
    exact ⟨et, ht, event, ⟨he, rfl⟩, rfl⟩

/-- The pairs the two `forEach` run over. -/
theorem mem_allEventTargetMap {ets : List EventTargetMetaData} {event : String}
    {et : EventTargetMetaData} :
    (∃ targets, (event, targets) ∈ (allEventTargetMap ets).entries ∧ et ∈ targets) ↔
      et ∈ ets ∧ event ∈ et.eventNames := by
  have hget := holds_allEventTargetMap ets event
  rw [← mem_targetsOf]
  simp only [LinkedMap.mem_entries_iff, hget]
  constructor
  · rintro ⟨targets, ht, het⟩
    split_ifs at ht with hnil
    obtain rfl := Option.some.inj ht
    exact het
  · intro h
    exact ⟨_, if_neg (List.ne_nil_of_mem h), h⟩

theorem putKeys_source (event : String) (et : EventTargetMetaData) :
    (((eventTargetSource event et).stmts U).getD []).filterMap putKey = [event] := by
  rw [eventTargetSource_stmts]
  rfl

/-- The emitted `put` statements are those of the surviving targets. -/
theorem mem_putKeys_sources {ets : List EventTargetMetaData} {event : String} :
    (∃ src ∈ sources ets, event ∈ ((src.stmts U).getD []).filterMap putKey) ↔
      ∃ et ∈ ets, event ∈ et.eventNames := by
  constructor
  · rintro ⟨src, hsrc, hev⟩
    obtain ⟨⟨e, targets⟩, hentry, hsrc⟩ := List.mem_flatMap.1 hsrc
    obtain ⟨et, het, rfl⟩ := List.mem_map.1 hsrc
    rw [putKeys_source, List.mem_singleton] at hev
    subst hev
    exact ⟨et, mem_allEventTargetMap.1 ⟨targets, hentry, het⟩⟩
  · rintro ⟨et, het, hev⟩
    obtain ⟨targets, hentry, hmem⟩ := mem_allEventTargetMap.2 ⟨het, hev⟩
    refine ⟨eventTargetSource event et, ?_, by simp [putKeys_source]⟩
    exact List.mem_flatMap.2 ⟨_, hentry, List.mem_map.2 ⟨et, hmem, rfl⟩⟩

theorem mem_putKeys_process (sons : List EventTargetMetaData) (event : String) :
    event ∈ (process sons).putKeys U ↔
      ∃ et ∈ (removeParent none (sons.map some)).reduceOption, event ∈ et.eventNames := by
  unfold process
  cases h : (removeParent none (sons.map some)).reduceOption with
  | nil => simp [Outcome.done, Outcome.putKeys]
  | cons et ets =>
    rw [← mem_putKeys_sources U]
    simp [Outcome.done, Outcome.putKeys, List.flatMap_map]

theorem mem_putKeys {H : Hierarchy String} {sons : List EventTargetMetaData}
    (h : ∀ e ∈ sons, Consistent H e) {event : String} :
    event ∈ (process sons).putKeys U ↔
      ∃ f ∈ sons, event ∈ f.eventNames ∧ ¬ Extended sons f := by
  rw [mem_putKeys_process]
  simp only [mem_removeParent_none h]
  constructor
  · rintro ⟨f, ⟨hf, hx⟩, hk⟩
    exact ⟨f, hf, hk, hx⟩
  · rintro ⟨f, hf, hk, hx⟩
    exact ⟨f, ⟨hf, hx⟩, hk⟩

end EventTargetProcessor

/-! ## Both -/

/-- **No declared key is lost if and only if each is declared by an entry that nothing extends.** -/
theorem keys_kept_iff {H : Hierarchy String} (deps : List DependencyMetaData)
    (targets : List EventTargetMetaData) (hd : ∀ d ∈ deps, Consistent H d)
    (ht : ∀ t ∈ targets, Consistent H t) :
    ((∀ d ∈ deps, d.key ∈ (DependencyProcessor.process deps).putKeys U) ↔
      ∀ d ∈ deps, ∃ f ∈ deps, f.key = d.key ∧ ¬ Extended deps f) ∧
    ((∀ t ∈ targets, ∀ event ∈ t.eventNames,
        event ∈ (EventTargetProcessor.process targets).putKeys U) ↔
      ∀ t ∈ targets, ∀ event ∈ t.eventNames,
        ∃ f ∈ targets, event ∈ f.eventNames ∧ ¬ Extended targets f) := by
  constructor
  · simp only [DependencyProcessor.mem_putKeys U hd]
  · simp only [EventTargetProcessor.mem_putKeys U ht]

/-- `B` extends `A`, and each declares a key of its own. -/
def lineOfTwo : Hierarchy String := .line ["B", "A"] (by decide)

/-- `B` declares the key and the event of `A` as well as its own: nothing is lost. -/
theorem keys_kept_shared :
    (∀ d ∈ [(⟨"k", "A", []⟩ : DependencyMetaData), ⟨"k", "B", ["A"]⟩], Consistent lineOfTwo d) ∧
    (∀ t ∈ [(⟨["e"], "A", []⟩ : EventTargetMetaData), ⟨["e", "f"], "B", ["A"]⟩],
      Consistent lineOfTwo t) ∧
    ((∀ d ∈ [(⟨"k", "A", []⟩ : DependencyMetaData), ⟨"k", "B", ["A"]⟩],
        d.key ∈ (DependencyProcessor.process [⟨"k", "A", []⟩, ⟨"k", "B", ["A"]⟩]).putKeys
          ⟨fun _ => false, fun _ => false⟩) ∧
      ∀ t ∈ [(⟨["e"], "A", []⟩ : EventTargetMetaData), ⟨["e", "f"], "B", ["A"]⟩],
        ∀ event ∈ t.eventNames,
          event ∈ (EventTargetProcessor.process
            [⟨["e"], "A", []⟩, ⟨["e", "f"], "B", ["A"]⟩]).putKeys
              ⟨fun _ => false, fun _ => false⟩) := by
  have hd : ∀ d ∈ [(⟨"k", "A", []⟩ : DependencyMetaData), ⟨"k", "B", ["A"]⟩],
      Consistent lineOfTwo d := by
    simp only [List.forall_mem_cons]
    exact ⟨rfl, rfl, by simp⟩
  have ht : ∀ t ∈ [(⟨["e"], "A", []⟩ : EventTargetMetaData), ⟨["e", "f"], "B", ["A"]⟩],
      Consistent lineOfTwo t := by
    simp only [List.forall_mem_cons]
    exact ⟨rfl, rfl, by simp⟩
  obtain ⟨h1, h2⟩ := keys_kept_iff ⟨fun _ => false, fun _ => false⟩ _ _ hd ht
  exact ⟨hd, ht, h1.2 (by decide), h2.2 (by decide)⟩

/-- **A key of the base class is lost**: `A` is dropped for `B`, which declares another key. -/
theorem keys_lost : ¬ ∀ (U : UnicodeIdent) (H : Hierarchy String) (deps : List DependencyMetaData),
    (∀ d ∈ deps, Consistent H d) →
      ∀ d ∈ deps, d.key ∈ (DependencyProcessor.process deps).putKeys U := by
  intro h
  have hd : ∀ d ∈ [(⟨"a", "A", []⟩ : DependencyMetaData), ⟨"b", "B", ["A"]⟩],
      Consistent lineOfTwo d := by
    simp only [List.forall_mem_cons]
    exact ⟨rfl, rfl, by simp⟩
  have hmem := h ⟨fun _ => false, fun _ => false⟩ lineOfTwo _ hd ⟨"a", "A", []⟩ (by simp)
  rw [DependencyProcessor.mem_putKeys _ hd] at hmem
  exact absurd hmem (by decide)

end HybridStack.Pisces
