import HybridStack.Pisces.Keys

/-!
# Event registrations

`EventTargetProcessor.process` turns the list of (class, events) left by `removeParent` into a map
from event to classes, and emits one `put` for each class of each entry.

- `entries_allEventTargetMap`: the map has the events in the order in which they come first, and
  under each the targets that name it, once for each time they do.
- **`registrations_regroup`**: the `put` calls of the injected source are a permutation of a walk over
  the leaves, event by event; each puts an object of the leaf's class with all its event names.
-/

namespace HybridStack.Pisces

open Ancestry (Hierarchy)
open JavaSource
open Sweep

/-- A call `put(event, target)`, with what `target` was made from. -/
structure Registration where
  event : String
  classname : String
  eventNames : List String
  deriving DecidableEq, Repr

/-- `T x = new C(new String[]{…}, "…"); ….put("event", x);`. -/
def registration : List Stmt → Option Registration
  | [.init _ x _ [.strings eventNames, .str classname], .call target [.str event, .name y]] =>
    if target.tail.getLast? = some "put" ∧ y = ⟨x, []⟩ then some ⟨event, classname, eventNames⟩
    else none
  | _ => none

variable (U : UnicodeIdent)

/-- The `put` calls of the injected source, in the order in which it is injected. -/
def Outcome.registrations (o : Outcome) : List Registration :=
  o.injected.filterMap fun
    | .insertAfter _ src => (src.stmts U).bind registration
    | .insertJSON _ _ => none

namespace EventTargetProcessor

def registrationOf (et : EventTargetMetaData) (event : String) : Registration :=
  ⟨event, et.classname, et.eventNames⟩

/-- Every occurrence of an event in a target, target by target. -/
def walk (eventTargets : List EventTargetMetaData) : List Registration :=
  eventTargets.flatMap fun et => et.eventNames.map (registrationOf et)

/-! ## The map -/

/-- The events of the targets, repetitions included. -/
def eventsOf (eventTargets : List EventTargetMetaData) : List String :=
  eventTargets.flatMap EventTargetMetaData.eventNames

theorem keys_addTargets (et : EventTargetMetaData) : ∀ (events : List String)
    {map : LinkedMap String (List EventTargetMetaData)} {seen : List String},
    map.keys = seen.eraseDups →
      (events.foldl (fun map event => addTarget map et event) map).keys = (seen ++ events).eraseDups
  | [], map, seen, h => by simpa using h
  | event :: events, map, seen, h => by
    have hput : (addTarget map et event).keys = (seen ++ [event]).eraseDups :=
      LinkedMap.keys_put_eraseDups h event _
    rw [List.foldl_cons, keys_addTargets et events hput, List.append_assoc, List.singleton_append]

theorem keys_allEventTargetMap (ets : List EventTargetMetaData) :
    (allEventTargetMap ets).keys = (eventsOf ets).eraseDups := by
  have hrun : ∀ (ets : List EventTargetMetaData)
      (map : LinkedMap String (List EventTargetMetaData)) (seen : List String),
      map.keys = seen.eraseDups → (ets.foldl (fun map et =>
        et.eventNames.foldl (fun map event => addTarget map et event) map) map).keys =
          (seen ++ eventsOf ets).eraseDups := by
    intro ets
    induction ets with
    | nil => intro map seen h; simpa [eventsOf] using h
    | cons et ets ih =>
      intro map seen h
      rw [List.foldl_cons, ih _ _ (keys_addTargets et et.eventNames h), List.append_assoc]
      rfl
  simpa [allEventTargetMap] using hrun ets .empty [] rfl

theorem targetsOf_ne_nil {ets : List EventTargetMetaData} {event : String}
    (h : event ∈ eventsOf ets) : targetsOf ets event ≠ [] := by
  obtain ⟨et, het, hev⟩ := List.mem_flatMap.1 h
  exact List.ne_nil_of_mem (mem_targetsOf.2 ⟨het, hev⟩)

theorem entries_allEventTargetMap (ets : List EventTargetMetaData) :
    (allEventTargetMap ets).entries =
      (eventsOf ets).eraseDups.map fun event => (event, targetsOf ets event) := by
  rw [← keys_allEventTargetMap]
  refine LinkedMap.entries_eq_map fun event hev => ?_
  rw [keys_allEventTargetMap, List.mem_eraseDups] at hev
  rw [holds_allEventTargetMap ets event, if_neg (targetsOf_ne_nil hev)]

/-! ## The calls -/

theorem registration_source (event : String) (et : EventTargetMetaData) :
    ((eventTargetSource event et).stmts U).bind registration = some (registrationOf et event) := by
  have hput : (hybrid ["event", "EventTargetDataSetImpl", "put"]).tail.getLast? = some "put" := rfl
  rw [eventTargetSource_stmts, Option.bind_some, eventTargetStmts, registration,
    if_pos ⟨hput, rfl⟩]
  rfl

/-- The targets of one event are those of the walk. -/
theorem targetsOf_eq_walk (ets : List EventTargetMetaData) (event : String) :
    (targetsOf ets event).map (registrationOf · event) =
      (walk ets).filter fun r => r.event = event := by
  rw [targetsOf, walk, List.map_flatMap, List.filter_flatMap]
  refine List.flatMap_congr fun et _ => ?_
  rw [List.filter_map, List.map_map]
  refine List.map_congr_left fun e he => ?_
  have heq : e = event := by simpa using (List.mem_filter.1 he).2
  subst heq
  rfl

theorem map_event_walk (ets : List EventTargetMetaData) :
    (walk ets).map Registration.event = eventsOf ets := by
  rw [walk, eventsOf, List.map_flatMap]
  refine List.flatMap_congr fun et _ => ?_
  rw [List.map_map]
  exact List.map_id'' (fun _ => rfl) _

/-- What `sources` registers, event by event. -/
theorem registrations_sources (ets : List EventTargetMetaData) :
    (sources ets).filterMap (fun src => (src.stmts U).bind registration) =
      (eventsOf ets).eraseDups.flatMap fun event => (walk ets).filter fun r => r.event = event := by
  have hone : ∀ event, ((targetsOf ets event).map fun et => eventTargetSource event et).filterMap
      (fun src => (src.stmts U).bind registration) = (targetsOf ets event).map (registrationOf · event) := by
    intro event
    rw [List.filterMap_map, ← List.filterMap_eq_map]
    refine List.filterMap_congr fun et _ => ?_
    simp only [Function.comp_apply]
    rw [registration_source]
  rw [sources, entries_allEventTargetMap, List.flatMap_map, List.filterMap_flatMap]
  simp only [hone, targetsOf_eq_walk]

theorem registrations_process (sons : List EventTargetMetaData) :
    (process sons).registrations U =
      (sources (removeParent none (sons.map some)).reduceOption).filterMap
        fun src => (src.stmts U).bind registration := by
  unfold process
  cases h : (removeParent none (sons.map some)).reduceOption with
  | nil => rfl
  | cons et ets =>
    simp only [List.isEmpty_cons, Bool.false_eq_true, if_false, Outcome.done, Outcome.registrations,
      List.filterMap_map]
    rfl

/-- The targets that no listed target extends. -/
def leaves (sons : List EventTargetMetaData) : List EventTargetMetaData :=
  sons.filter fun t => ¬ Extended sons t

theorem removeParent_targets {H : Hierarchy String} {sons : List EventTargetMetaData}
    (h : ∀ t ∈ sons, Consistent H t) : (removeParent none (sons.map some)).reduceOption = leaves sons := by
  rw [removeParent_map_some skipOk_none h, reduceOption_map_some]
  refine List.filter_congr fun t _ => ?_
  simp [Dominated, Extended, guarded, skips, extendsB]

/-- **Regrouping neither loses nor invents registrations**: the calls are the walk over the leaves,
grouped by event; the events in the order in which they come first, the calls of one event in the
order of the walk. -/
theorem registrations_regroup {H : Hierarchy String} {sons : List EventTargetMetaData}
    (h : ∀ t ∈ sons, Consistent H t) :
    ((process sons).registrations U).Perm (walk (leaves sons)) ∧
    (process sons).registrations U =
      (eventsOf (leaves sons)).eraseDups.flatMap fun event =>
        (leaves sons).flatMap fun et =>
          (et.eventNames.filter fun e => e = event).map (registrationOf et) := by
  have hcalls : (process sons).registrations U =
      (eventsOf (leaves sons)).eraseDups.flatMap fun event =>
        (walk (leaves sons)).filter fun r => r.event = event := by
    rw [registrations_process, removeParent_targets h, registrations_sources]
  constructor
  · rw [hcalls]
    refine LinkedMap.flatMap_filter_perm Registration.event ?_ fun r hr => ?_
    · rw [← keys_allEventTargetMap]
      exact (allEventTargetMap (leaves sons)).nodup
    · rw [List.mem_eraseDups, ← map_event_walk]
      exact List.mem_map_of_mem hr
  · rw [hcalls]
    refine List.flatMap_congr fun event _ => ?_
    rw [walk, List.filter_flatMap]
    refine List.flatMap_congr fun et _ => ?_
    rw [List.filter_map]
    rfl

/-- `A` and `C` share an event, `C` names it twice; `B` goes for `A`. -/
def overlapping : List EventTargetMetaData :=
  [⟨["e", "f"], "A", ["B"]⟩, ⟨["g"], "B", []⟩, ⟨["f", "e", "e"], "C", []⟩]

theorem registrations_regroup_overlapping :
    (∀ t ∈ overlapping, Consistent (.line ["A", "B"] (by decide)) t) ∧
    (process overlapping).registrations ⟨fun _ => false, fun _ => false⟩ =
      [⟨"e", "A", ["e", "f"]⟩, ⟨"e", "C", ["f", "e", "e"]⟩, ⟨"e", "C", ["f", "e", "e"]⟩,
        ⟨"f", "A", ["e", "f"]⟩, ⟨"f", "C", ["f", "e", "e"]⟩] := by
  have h : ∀ t ∈ overlapping, Consistent (.line ["A", "B"] (by decide)) t := by
    simp only [overlapping, List.forall_mem_cons]
    exact ⟨rfl, rfl, rfl, by simp⟩
  refine ⟨h, ?_⟩
  rw [(registrations_regroup ⟨fun _ => false, fun _ => false⟩ h).2]
  decide

end EventTargetProcessor

end HybridStack.Pisces
