import HybridStack.Pisces.CardJson
import Mathlib.Data.List.ReduceOption

/-!
# What `getCardJsonString` filters

The JSON that is returned against the list without what the blacklist names. Every `toJSON` makes a
list of its own (`load`), so the loop is a fold over values: an entry takes the last interface of
its name, once.

| here | is |
| --- | --- |
| `filtered` | the list with everything the blacklist names removed |
| `blackRun` | the loop of Utils.kt:87-111 on values, where it does not throw |

Main results:
- `blackLoop_json`: the loop on the caller's lists is `blackRun`.
- `blackRun_eq_filtered_iff`: when `blackRun` is `filtered`.
- **`getCardJsonString_filtered_iff`**: the function returns `filtered` exactly when no entry is
  malformed, none meets a list of strings, and every name has as many interfaces as the entries get
  to.
-/

namespace HybridStack.Pisces

open LastOfKey

/-! ## What is asked for -/

/-- The name is on the blacklist without methods. -/
def Blacklisted (infos : List BlackInfo) (name : String) : Prop :=
  ∃ b ∈ infos, trim b.name = name ∧ b.methods = none

/-- The name is on the blacklist with a list that has the method. -/
def MethodBlacklisted (infos : List BlackInfo) (name : String) (m : MethodValue) : Prop :=
  ∃ b ∈ infos, trim b.name = name ∧ ∃ ms ∈ b.methods, Named ms m

instance (infos : List BlackInfo) : DecidablePred (Blacklisted infos) :=
  fun name => inferInstanceAs (Decidable (∃ b ∈ infos, trim b.name = name ∧ b.methods = none))

instance (infos : List BlackInfo) (name : String) : DecidablePred (MethodBlacklisted infos name) :=
  fun m => inferInstanceAs
    (Decidable (∃ b ∈ infos, trim b.name = name ∧ ∃ ms ∈ b.methods, Named ms m))

/-- The interface without the methods blacklisted for its name. -/
def InterfaceJSON.without (infos : List BlackInfo) (i : InterfaceJSON) : InterfaceJSON :=
  { i with methods := i.methods.map fun l => l.filter fun m => ¬ MethodBlacklisted infos i.name m }

def filtered (infos : List BlackInfo) (jsons : List InterfaceJSON) : List InterfaceJSON :=
  (jsons.filter fun i => ¬ Blacklisted infos i.name).map (InterfaceJSON.without infos)

/-! ## The loop on values -/

/-- What an entry with methods does to an interface. -/
def BlackInfo.prune (b : BlackInfo) (i : InterfaceJSON) : InterfaceJSON :=
  match b.methods with
  | some ms => if i.name = trim b.name then i.prune ms else i
  | none => i

/-- The body of the loop. -/
def infoStep (jsons : List InterfaceJSON) (b : BlackInfo) : List InterfaceJSON :=
  match b.methods, lastOf InterfaceJSON.name (trim b.name) jsons with
  | some _, _ => mapLasts InterfaceJSON.name b.prune jsons
  | none, some t => jsons.erase t
  | none, none => jsons

def blackRun (infos : List BlackInfo) (jsons : List InterfaceJSON) : List InterfaceJSON :=
  infos.foldl infoStep jsons

@[simp] theorem BlackInfo.prune_name (b : BlackInfo) (i : InterfaceJSON) :
    (b.prune i).name = i.name := by
  unfold BlackInfo.prune
  split
  · split_ifs <;> rfl
  · rfl

@[simp] theorem InterfaceJSON.without_name (infos : List BlackInfo) (i : InterfaceJSON) :
    (i.without infos).name = i.name := rfl

theorem BlackInfo.prune_of_methods {b : BlackInfo} {ms : List (Option String)}
    (hb : b.methods = some ms) (i : InterfaceJSON) :
    b.prune i = if i.name = trim b.name then i.prune ms else i := by
  rw [BlackInfo.prune, hb]

theorem BlackInfo.prune_of_whole {b : BlackInfo} (hb : b.methods = none) (i : InterfaceJSON) :
    b.prune i = i := by
  rw [BlackInfo.prune, hb]

theorem InterfaceJSON.without_nil (i : InterfaceJSON) : i.without [] = i := by
  simp [without, MethodBlacklisted]

theorem methodBlacklisted_cons {b : BlackInfo} {infos : List BlackInfo} {name : String}
    {m : MethodValue} : MethodBlacklisted (b :: infos) name m ↔
      (trim b.name = name ∧ ∃ ms ∈ b.methods, Named ms m) ∨ MethodBlacklisted infos name m := by
  simp [MethodBlacklisted]

/-- The entries take their methods one after the other. -/
theorem InterfaceJSON.without_cons (b : BlackInfo) (infos : List BlackInfo) (i : InterfaceJSON) :
    i.without (b :: infos) = (b.prune i).without infos := by
  obtain ⟨name, instantiable, types, methods⟩ := i
  cases methods with
  | none => cases hb : b.methods <;> by_cases hname : name = trim b.name <;>
      simp [without, BlackInfo.prune, hb, hname, prune]
  | some l =>
    cases hb : b.methods with
    | none =>
      rw [BlackInfo.prune_of_whole hb]
      simp [without, methodBlacklisted_cons, hb]
    | some ms =>
      by_cases hname : name = trim b.name
      · subst hname
        simp [without, BlackInfo.prune, hb, prune, methodBlacklisted_cons, List.filter_filter,
          Bool.and_comm]
      · have hne : trim b.name ≠ name := fun h => hname h.symm
        simp [without, BlackInfo.prune, hb, hname, methodBlacklisted_cons, hne]

theorem InterfaceJSON.without_eq_self_iff {infos : List BlackInfo} {i : InterfaceJSON} :
    i.without infos = i ↔
      ∀ b ∈ infos, trim b.name = i.name → ∀ ms ∈ b.methods, ¬ i.Has ms := by
  obtain ⟨name, instantiable, types, methods⟩ := i
  cases methods with
  | none => simp [without, Has]
  | some l =>
    simp only [without, Option.map_some, InterfaceJSON.mk.injEq, true_and, Option.some.injEq,
      List.filter_eq_self, Has, MethodBlacklisted]
    simp
    grind

/-! ## What the loop leaves -/

section

variable {all : List BlackInfo}

/-- An entry without methods removes interfaces that are not asked for anyway. -/
theorem filter_infoStep {b : BlackInfo} (hb : b ∈ all) (jsons : List InterfaceJSON) :
    (infoStep jsons b).filter (fun i => ¬ Blacklisted all i.name) =
      mapLasts InterfaceJSON.name b.prune (jsons.filter fun i => ¬ Blacklisted all i.name) := by
  cases hm : b.methods with
  | some ms =>
    rw [infoStep, hm]
    exact filter_mapLasts b.prune_name (fun name => ¬ Blacklisted all name) jsons
  | none =>
    rw [mapLasts_of_fixed fun i _ => BlackInfo.prune_of_whole hm i, infoStep, hm]
    cases ht : lastOf InterfaceJSON.name (trim b.name) jsons with
    | none => rfl
    | some t =>
      have hblack : Blacklisted all t.name := ⟨b, hb, (mem_of_lastOf ht).2.symm, hm⟩
      show (jsons.erase t).filter _ = _
      rw [← List.erase_filter, List.erase_of_not_mem (by simp [hblack])]

theorem filter_blackRun : ∀ {infos : List BlackInfo}, infos ⊆ all → ∀ jsons : List InterfaceJSON,
    (blackRun infos jsons).filter (fun i => ¬ Blacklisted all i.name) =
      mapLasts InterfaceJSON.name (InterfaceJSON.without infos)
        (jsons.filter fun i => ¬ Blacklisted all i.name)
  | [], _, jsons => by
    rw [mapLasts_of_fixed fun i _ => i.without_nil]
    rfl
  | b :: infos, h, jsons => by
    have hcomp : InterfaceJSON.without infos ∘ b.prune = InterfaceJSON.without (b :: infos) :=
      funext fun i => (i.without_cons b infos).symm
    rw [blackRun, List.foldl_cons]
    have ih := filter_blackRun (List.subset_of_cons_subset h) (infoStep jsons b)
    rw [blackRun] at ih
    rw [ih, filter_infoStep (h (by simp)), mapLasts_mapLasts b.prune_name, hcomp]

theorem countP_infoStep (b : BlackInfo) (jsons : List InterfaceJSON) (name : String) :
    (infoStep jsons b).countP (fun i => i.name = name) =
      jsons.countP (fun i => i.name = name) - if trim b.name = name ∧ b.methods = none then 1 else 0 := by
  cases hm : b.methods with
  | some ms =>
    have hmap : ∀ l : List InterfaceJSON, l.countP (fun i => i.name = name) =
        (l.map InterfaceJSON.name).countP fun n => n = name := by
      intro l
      rw [List.countP_map]
      rfl
    rw [infoStep, hm, hmap, hmap]
    simp [map_key_mapLasts b.prune_name]
  | none =>
    rw [infoStep, hm]
    cases ht : lastOf InterfaceJSON.name (trim b.name) jsons with
    | none =>
      by_cases hname : trim b.name = name
      · have hzero : jsons.countP (fun i => i.name = name) = 0 := by
          rw [List.countP_eq_zero]
          intro i hi
          simpa [hname] using lastOf_eq_none_iff.1 ht i hi
        simp [hzero]
      · simp [hname]
    | some t =>
      obtain ⟨hmem, hname⟩ := mem_of_lastOf ht
      simp only [countP_erase_of_mem hmem, hname, decide_eq_true_eq, and_true]

theorem countP_blackRun (name : String) : ∀ (infos : List BlackInfo) (jsons : List InterfaceJSON),
    (blackRun infos jsons).countP (fun i => i.name = name) =
      jsons.countP (fun i => i.name = name) - wholes name infos
  | [], _ => rfl
  | b :: infos, jsons => by
    have hcons : wholes name (b :: infos) =
        wholes name infos + if trim b.name = name ∧ b.methods = none then 1 else 0 := by
      simp [wholes, List.countP_cons]
    have ih := countP_blackRun name infos (infoStep jsons b)
    rw [countP_infoStep] at ih
    rw [blackRun, List.foldl_cons, ← blackRun, ih, hcons]
    omega

end

/-- Every name without methods on the blacklist has an entry for each of its interfaces, and of the
other names no interface but the last has a method to remove. -/
structure Exact (jsons : List InterfaceJSON) (infos : List BlackInfo) : Prop where
  wholes_le : ∀ name, Blacklisted infos name →
    jsons.countP (fun i => i.name = name) ≤ wholes name infos
  last_only : ∀ s i e, (jsons.filter fun i => ¬ Blacklisted infos i.name) = s ++ i :: e →
    (∃ j ∈ e, j.name = i.name) →
      ∀ b ∈ infos, trim b.name = i.name → ∀ ms ∈ b.methods, ¬ i.Has ms

/-- No interface that is left is blacklisted as a whole. -/
theorem blackRun_kept_iff {infos : List BlackInfo} {jsons : List InterfaceJSON} :
    (∀ i ∈ blackRun infos jsons, ¬ Blacklisted infos i.name) ↔
      ∀ name, Blacklisted infos name →
        jsons.countP (fun i => i.name = name) ≤ wholes name infos := by
  have hzero : ∀ name, jsons.countP (fun i => i.name = name) ≤ wholes name infos ↔
      ∀ i ∈ blackRun infos jsons, i.name ≠ name := by
    intro name
    have hcount : (blackRun infos jsons).countP (fun i => i.name = name) = 0 ↔
        ∀ i ∈ blackRun infos jsons, i.name ≠ name := by simp [List.countP_eq_zero]
    rw [← hcount, countP_blackRun]
    omega
  simp only [hzero]
  constructor
  · rintro h name hblack i hi rfl
    exact h i hi hblack
  · intro h i hi hblack
    exact h _ hblack i hi rfl

theorem blackRun_eq_filtered_iff {infos : List BlackInfo} {jsons : List InterfaceJSON} :
    blackRun infos jsons = filtered infos jsons ↔ Exact jsons infos := by
  have hfilter := filter_blackRun (List.Subset.refl infos) jsons
  have hmap : mapLasts InterfaceJSON.name (InterfaceJSON.without infos)
      (jsons.filter fun i => ¬ Blacklisted infos i.name) = filtered infos jsons ↔
        ∀ s i e, (jsons.filter fun i => ¬ Blacklisted infos i.name) = s ++ i :: e →
          (∃ j ∈ e, j.name = i.name) →
            ∀ b ∈ infos, trim b.name = i.name → ∀ ms ∈ b.methods, ¬ i.Has ms := by
    simp only [filtered, mapLasts_eq_map_iff, InterfaceJSON.without_eq_self_iff]
  constructor
  · intro heq
    -- everything in `filtered` is kept, so the filter of what is left is the whole of it
    have hkept : ∀ i ∈ blackRun infos jsons, ¬ Blacklisted infos i.name := by
      intro i hi
      rw [heq, filtered, List.mem_map] at hi
      obtain ⟨j, hj, rfl⟩ := hi
      simpa using (List.mem_filter.1 hj).2
    refine ⟨blackRun_kept_iff.1 hkept, hmap.1 ?_⟩
    rw [← hfilter, List.filter_eq_self.2 (by simpa using hkept), heq]
  · intro hexact
    have hkept := blackRun_kept_iff.2 hexact.wholes_le
    rw [← hmap.2 hexact.last_only, ← hfilter, List.filter_eq_self.2 (by simpa using hkept)]

/-! ## The loop on the caller's lists -/

/-- No two maps have one list. -/
def Distinct (array : List InterfaceMap) : Prop :=
  array.Pairwise fun i j => ∀ r, i.methods = some r → j.methods ≠ some r

theorem json_prune_others {h : Lists} {ms : List (Option String)} {t : InterfaceMap}
    {l : List InterfaceMap} (hne : ∀ i ∈ l, ∀ r, t.methods = some r → i.methods ≠ some r) :
    toJson (h.prune ms t.methods) l = toJson h l :=
  List.map_congr_left fun i hi => Lists.json_prune_of_ne h ms (hne i hi)

/-- The list of one map is pruned, those of the others are as they were. -/
theorem toJson_prune {h : Lists} (ms : List (Option String)) {t : InterfaceMap}
    {s e : List InterfaceMap} (hd : Distinct (s ++ t :: e)) :
    toJson (h.prune ms t.methods) (s ++ t :: e) =
      toJson h s ++ (t.json h).prune ms :: toJson h e := by
  obtain ⟨-, hte, hst⟩ := List.pairwise_append.1 hd
  have hs : toJson (h.prune ms t.methods) s = toJson h s :=
    json_prune_others fun i hi r hr hir => hst i hi t (by simp) r hir hr
  have he : toJson (h.prune ms t.methods) e = toJson h e :=
    json_prune_others fun i hi r hr => (List.pairwise_cons.1 hte).1 i hi r hr
  rw [toJson_append, toJson_cons, hs, he, Lists.json_prune]

/-- Where it does not throw, the body of the loop is the one on values. -/
theorem blackStep_json {b : BlackInfo} {h h' : Lists} {array array' : List InterfaceMap}
    (hd : Distinct array) (hstep : blackStep b h array = .ok (h', array')) :
    toJson h' array' = infoStep (toJson h array) b ∧ Distinct array' := by
  obtain ⟨hnone, hok⟩ | ⟨t, ht, ⟨hb, hok⟩ | ⟨ms, hb, ⟨-, hok⟩ | ⟨-, herr⟩⟩⟩ :=
    blackStep_cases b h array
  · obtain ⟨rfl, rfl⟩ : h = h' ∧ array = array' := by simpa [hok] using hstep
    refine ⟨?_, hd⟩
    have hlast : lastOf InterfaceJSON.name (trim b.name) (toJson h array) = none := by
      rw [lastOf_json, hnone]
      rfl
    cases hm : b.methods with
    | none => rw [infoStep, hm, hlast]
    | some ms =>
      rw [infoStep, hm, hlast, mapLasts_of_fixed]
      intro i hi
      rw [BlackInfo.prune_of_methods hm, if_neg (lastOf_eq_none_iff.1 hlast i hi)]
  · obtain ⟨rfl, rfl⟩ : h = h' ∧ (array.eraseP fun it => it.json h = t.json h) = array' := by
      simpa [hok] using hstep
    refine ⟨?_, hd.sublist List.eraseP_sublist⟩
    rw [infoStep, hb, lastOf_json, ht, toJson_eraseP]
    rfl
  · obtain ⟨rfl, rfl⟩ : h.prune ms t.methods = h' ∧ array = array' := by simpa [hok] using hstep
    refine ⟨?_, hd⟩
    obtain ⟨s, e, rfl, hname, hlater⟩ := lastOf_eq_some ht
    have hfix : ∀ i : InterfaceJSON, i.name ≠ trim b.name → b.prune i = i := by
      intro i hi
      rw [BlackInfo.prune_of_methods hb, if_neg hi]
    have hprune : b.prune (t.json h) = (t.json h).prune ms := by
      rw [BlackInfo.prune_of_methods hb]
      exact if_pos hname
    have hlaterJson : ∀ i ∈ toJson h e, i.name ≠ trim b.name := by
      simpa [toJson] using hlater
    rw [toJson_prune ms hd, infoStep, hb, toJson_append, toJson_cons]
    simp only
    rw [mapLasts_split hfix hname hlaterJson, hprune]
  · rw [herr] at hstep
    cases hstep

theorem blackLoop_json : ∀ (rest : List (Option BlackInfo)) (h : Lists)
    (array array' : List InterfaceMap), Distinct array → (blackLoop rest h array).2 = .ok array' →
      toJson (blackLoop rest h array).1 array' = blackRun rest.reduceOption (toJson h array)
  | [], h, array, array', _, hok => by
    obtain rfl : array = array' := by simpa [blackLoop] using hok
    rfl
  | none :: _, _, _, _, _, hok => by simp [blackLoop] at hok
  | some b :: rest, h, array, array', hd, hok => by
    rw [blackLoop] at hok ⊢
    cases hstep : blackStep b h array with
    | error e => simp [hstep] at hok
    | ok next =>
      obtain ⟨h₁, array₁⟩ := next
      obtain ⟨hjson, hd₁⟩ := blackStep_json hd hstep
      simp only [hstep] at hok ⊢
      rw [blackLoop_json rest h₁ array₁ array' hd₁ hok, hjson, List.reduceOption_cons_of_some]
      rfl

/-! ## Where it does not throw -/

/-- Every element of every list is a map. -/
def Maps (h : Lists) : Prop := ∀ l ∈ h, ∀ m ∈ l, ∃ j, m = .map j

theorem Maps.casts {h : Lists} (hmaps : Maps h) (i : InterfaceMap) : (i.json h).Casts := by
  intro l hl m hm
  obtain ⟨r, -, rfl⟩ := Option.map_eq_some_iff.1 hl
  by_cases hr : r < h.length
  · exact hmaps (h.getD r []) (by simp [hr]) m hm
  · simp [hr] at hm

theorem Maps.prune {h : Lists} (hmaps : Maps h) (ms : List (Option String)) (o : Option ListRef) :
    Maps (h.prune ms o) := by
  cases o with
  | none => exact hmaps
  | some r =>
    intro l hl m hm
    rcases List.mem_or_eq_of_mem_set hl with hold | rfl
    · exact hmaps l hold m hm
    · by_cases hr : r < h.length
      · exact hmaps (h.getD r []) (by simp [hr]) m (List.mem_of_mem_filter hm)
      · simp [hr] at hm

theorem blackLoop_ok_of_maps : ∀ (rest : List (Option BlackInfo)) {h : Lists}
    (array : List InterfaceMap), Maps h →
      ((∃ a, (blackLoop rest h array).2 = .ok a) ↔ none ∉ rest)
  | [], h, array, _ => by simp [blackLoop]
  | none :: _, h, array, _ => by simp [blackLoop]
  | some b :: rest, h, array, hmaps => by
    rw [blackLoop]
    obtain ⟨-, hstep⟩ | ⟨t, -, ⟨-, hstep⟩ | ⟨ms, -, ⟨-, hstep⟩ | ⟨hcasts, -⟩⟩⟩ :=
      blackStep_cases b h array
    · simp [hstep, blackLoop_ok_of_maps rest array hmaps]
    · simp [hstep, blackLoop_ok_of_maps rest _ hmaps]
    · simp [hstep, blackLoop_ok_of_maps rest array (hmaps.prune ms t.methods)]
    · exact absurd (hmaps.casts t) hcasts

/-- With lists of strings nothing is ever removed from a list: the first entry that would throws. -/
theorem blackLoop_ok_of_strings {jsons : List InterfaceJSON} {h : Lists} :
    ∀ (rest : List (Option BlackInfo)) (before : List BlackInfo) (array : List InterfaceMap),
      (∀ i ∈ array, (i.json h).Casts → i.methods = none) → Past jsons h before array →
      ((∃ a, (blackLoop rest h array).2 = .ok a) ↔
        none ∉ rest ∧ Reached jsons (before ++ rest.reduceOption))
  | [], before, array, _, hpast => by simp [blackLoop, hpast.reached]
  | none :: _, before, array, _, _ => by simp [blackLoop]
  | some b :: rest, before, array, hstrings, hpast => by
    have hcons : before ++ (some b :: rest).reduceOption =
        before ++ [b] ++ rest.reduceOption := by simp [List.reduceOption_cons_of_some]
    have hmem : none ∉ some b :: rest ↔ none ∉ rest := by simp
    rw [hcons, hmem, blackLoop]
    obtain ⟨hstep, hnot⟩ | ⟨array', hstep, hsub, hpast', -⟩ |
      ⟨t, ms, ht, -, -, hcasts, hstep, hpast'⟩ := hpast.step b
    · rw [hstep]
      constructor
      · rintro ⟨_, hok⟩
        cases hok
      · exact fun h => absurd h.2.left hnot
    · rw [hstep]
      exact blackLoop_ok_of_strings rest (before ++ [b]) array'
        (fun i hi => hstrings i (hsub hi)) hpast'
    · have hsame : h.prune ms t.methods = h := by rw [hstrings t ht hcasts, Lists.prune]
      rw [hstep, hsame]
      exact blackLoop_ok_of_strings rest (before ++ [b]) array hstrings hpast'

/-! ## The lists the plugin makes -/

/-- What `jsonlist` is made of by `toJSON`. -/
inductive InterfaceSource
  | extensions (l : List ExtensionMetaData)
  | widgets (l : List WidgetMetaData)

def InterfaceSource.jsons : InterfaceSource → List InterfaceJSON
  | extensions l => l.map fun e => e.toJSON.toInterface
  | widgets l => l.map fun w => w.toJSON.toInterface

/-- The maps of these values, each `methods` list being one of its own. -/
def load (jsons : List InterfaceJSON) : Lists × List InterfaceMap :=
  (jsons.map fun i => i.methods.getD [],
    jsons.zipIdx.map fun (i, r) => ⟨i.name, i.instantiable, i.types, i.methods.map fun _ => r⟩)

theorem toJson_load (jsons : List InterfaceJSON) : toJson (load jsons).1 (load jsons).2 = jsons := by
  have hread : ∀ p ∈ jsons.zipIdx, InterfaceMap.json (load jsons).1
      ⟨p.1.name, p.1.instantiable, p.1.types, p.1.methods.map fun _ => p.2⟩ = p.1 := by
    rintro ⟨⟨name, instantiable, types, methods⟩, r⟩ hp
    have hget := List.mem_zipIdx_iff_getElem?.1 hp
    cases methods with
    | none => rfl
    | some l => simp [InterfaceMap.json, load, hget]
  rw [toJson, load, List.map_map]
  conv_rhs => rw [← List.zipIdx_map_fst 0 jsons]
  exact List.map_congr_left hread

theorem distinct_load (jsons : List InterfaceJSON) : Distinct (load jsons).2 := by
  have hnodup : (jsons.zipIdx.map Prod.snd).Pairwise (· ≠ ·) := by
    rw [List.zipIdx_map_snd]
    exact List.nodup_range'
  rw [Distinct, load, List.pairwise_map]
  refine (List.pairwise_map.1 hnodup).imp fun {p q} hne r hp hq => ?_
  simp only [Option.map_eq_some_iff] at hp hq
  obtain ⟨-, -, hp⟩ := hp
  obtain ⟨-, -, hq⟩ := hq
  exact hne (hp.trans hq.symm)

theorem reached_of_casts {jsons : List InterfaceJSON} (hcasts : ∀ i ∈ jsons, i.Casts)
    (infos : List BlackInfo) : Reached jsons infos := by
  intro before b after _ _ t ht
  exact hcasts t (List.mem_of_mem_filter (mem_of_lastAfter ht))

/-- Every extension has a list of maps. -/
theorem extensions_casts {l : List ExtensionMetaData} :
    ∀ i ∈ (InterfaceSource.extensions l).jsons, i.Casts := by
  simp [InterfaceSource.jsons, InterfaceJSON.Casts, ExtensionMetaData.JSON.toInterface]

/-- A widget that has methods has strings. -/
theorem widgets_casts {l : List WidgetMetaData} :
    ∀ i ∈ (InterfaceSource.widgets l).jsons, i.Casts → i.methods = none := by
  intro i hi hcasts
  obtain ⟨w, -, rfl⟩ := List.mem_map.1 hi
  cases hm : w.methods with
  | nil => simp [WidgetJSON.toInterface, WidgetMetaData.toJSON, hm]
  | cons m ms =>
    have hsome : w.toJSON.toInterface.methods = some ((m :: ms).map .string) := by
      simp [WidgetJSON.toInterface, WidgetMetaData.toJSON, hm]
    obtain ⟨j, hj⟩ := hcasts _ hsome (.string m) (by simp)
    cases hj

theorem maps_load {jsons : List InterfaceJSON} (hcasts : ∀ i ∈ jsons, i.Casts) :
    Maps (load jsons).1 := by
  intro methods hmethods
  obtain ⟨i, hi, rfl⟩ := List.mem_map.1 hmethods
  cases hm : i.methods with
  | none => simp
  | some ms => exact hcasts i hi ms hm

theorem past_load (jsons : List InterfaceJSON) : Past jsons (load jsons).1 [] (load jsons).2 := by
  have hstart := Past.start (load jsons).1 (load jsons).2
  rwa [toJson_load] at hstart

theorem blackLoop_load_ok_iff (source : InterfaceSource) (blackList : List (Option BlackInfo)) :
    (∃ a, (blackLoop blackList (load source.jsons).1 (load source.jsons).2).2 = .ok a) ↔
      none ∉ blackList ∧ Reached source.jsons blackList.reduceOption := by
  cases source with
  | extensions l =>
    rw [blackLoop_ok_of_maps blackList _ (maps_load extensions_casts),
      and_iff_left (reached_of_casts extensions_casts _)]
  | widgets l =>
    refine blackLoop_ok_of_strings blackList [] _ ?_ (past_load _)
    intro i hi hcasts
    have hmem : i.json (load (InterfaceSource.widgets l).jsons).1 ∈
        toJson (load (InterfaceSource.widgets l).jsons).1 (load (InterfaceSource.widgets l).jsons).2 :=
      List.mem_map_of_mem hi
    rw [toJson_load] at hmem
    simpa [InterfaceMap.json] using widgets_casts _ hmem hcasts

/-- **The result is the filtered list exactly when the entries get to everything they name.** -/
theorem getCardJsonString_filtered_iff (file : CardJsonFile) (key : Option String)
    (source : InterfaceSource) (blackList : List (Option BlackInfo))
    (hfile : file.blackList key = .ok (some blackList)) :
    (getCardJsonString file key (load source.jsons).1 (load source.jsons).2).2 =
        .ok (some (filtered blackList.reduceOption source.jsons)) ↔
      none ∉ blackList ∧ Reached source.jsons blackList.reduceOption ∧
        Exact source.jsons blackList.reduceOption := by
  have hok := blackLoop_load_ok_iff source blackList
  rw [getCardJsonString, hfile, ← and_assoc, ← hok, ← blackRun_eq_filtered_iff]
  cases hloop : (blackLoop blackList (load source.jsons).1 (load source.jsons).2).2 with
  | error e => simp [hloop, Except.map]
  | ok array' =>
    have hjson := blackLoop_json blackList _ _ array' (distinct_load _) hloop
    rw [toJson_load] at hjson
    simp [hloop, Except.map, hjson]

/-- The component blacklist of the example of Utils.kt:24-34, for two of its widgets. -/
theorem getCardJsonString_filtered_iff_canvas :
    let source := InterfaceSource.widgets
      [⟨"canvas", "Canvas", [], false, ["animate"], []⟩, ⟨"text", "Text", [], false, [], []⟩]
    let blackList := [some ⟨"canvas", none⟩, some ⟨"web", none⟩, some ⟨"video", none⟩]
    let file := CardJsonFile.content (some (.ofList [("componentBlacklist", blackList)]))
    (getCardJsonString file (some "componentBlacklist") (load source.jsons).1
        (load source.jsons).2).2 = .ok (some (filtered blackList.reduceOption source.jsons)) ↔
      none ∉ blackList ∧ Reached source.jsons blackList.reduceOption ∧
        Exact source.jsons blackList.reduceOption :=
  getCardJsonString_filtered_iff _ _ _ _ rfl

/-- The widget list names `picker` once for every type; one entry removes one of them. -/
theorem picker_left :
    let source := InterfaceSource.widgets
      [⟨"picker", "MultiPicker", [], false, ["show"], [⟨"multi-text", true⟩]⟩,
        ⟨"picker", "TimePicker", [], false, ["show"], [⟨"time", true⟩]⟩]
    let blackList := [some ⟨"picker", none⟩]
    let file := CardJsonFile.content (some (.ofList [("componentBlacklist", blackList)]))
    ¬ (getCardJsonString file (some "componentBlacklist") (load source.jsons).1
        (load source.jsons).2).2 = .ok (some (filtered blackList.reduceOption source.jsons)) := by
  decide +kernel

/-- The methods of a widget are no maps. -/
example :
    let jsons := (InterfaceSource.widgets [⟨"input", "Input", [], false, ["focus"], []⟩]).jsons
    let blackList := [some ⟨"input", some [some "focus"]⟩]
    let file := CardJsonFile.content (some (.ofList [("componentBlacklist", blackList)]))
    (getCardJsonString file (some "componentBlacklist") (load jsons).1 (load jsons).2).2 =
      .error .classCastException := by decide +kernel

end HybridStack.Pisces
