import HybridStack.Lib.LastOfKey
import HybridStack.Pisces.Processors

/-!
# `getCardJsonString`

Utils.kt:60-113: the JSON of a list of interfaces without what the blacklist `key` of `card.json`
names. The outer list is copied (`toMutableList`), the maps in it and their `methods` lists are the
caller's. A map is never written, so it is a record here with the address of its `methods` list;
`Lists` is the memory these addresses are in. Widgets have a list of strings where extensions have
a list of objects, which the cast of the code does not tell apart (erasure): the loop over the
methods throws at the first string.

Left out: the log lines, an `IOException` of `readText`, and the text of the JSON, of which the
array is kept. Keys of `policy` that hold no array are as if they were missing.

Main results:
- `blackStep_cases`: all an entry of the blacklist can do.
- **`getCardJsonString_unchanged_iff`**: the caller's interfaces are as before exactly when no entry
  with methods finds one of them in the interface it picks.
-/

namespace HybridStack.Pisces

open LastOfKey

/-! ## Interfaces -/

/-- An element of a `methods` list. -/
inductive MethodValue
  | map (m : ExtensionMetaData.MethodJSON)
  | string (name : String)
  deriving DecidableEq, Repr

def MethodValue.name : MethodValue → String
  | .map m => m.name
  | .string name => name

/-- A map of `jsonlist` with all that it reaches. A key that is not put is `none`. -/
structure InterfaceJSON where
  name : String
  instantiable : Option Bool
  types : Option (List String)
  methods : Option (List MethodValue)
  deriving DecidableEq, Repr

def ExtensionMetaData.JSON.toInterface (j : ExtensionMetaData.JSON) : InterfaceJSON :=
  ⟨j.name, some j.instantiable, none, some (j.methods.map .map)⟩

def WidgetJSON.toInterface (j : WidgetJSON) : InterfaceJSON :=
  ⟨j.name, none, j.types, j.methods.map fun l => l.map .string⟩

/-- The address of a `methods` list. -/
abbrev ListRef := Nat

/-- The `methods` lists. -/
abbrev Lists := List (List MethodValue)

/-- A map of `jsonlist`. -/
structure InterfaceMap where
  name : String
  instantiable : Option Bool
  types : Option (List String)
  methods : Option ListRef
  deriving DecidableEq, Repr

def InterfaceMap.json (h : Lists) (i : InterfaceMap) : InterfaceJSON :=
  ⟨i.name, i.instantiable, i.types, i.methods.map fun r => h.getD r []⟩

/-- `JsonOutput.toJson`. -/
def toJson (h : Lists) (jsonlist : List InterfaceMap) : List InterfaceJSON :=
  jsonlist.map (InterfaceMap.json h)

@[simp] theorem toJson_cons (h : Lists) (i : InterfaceMap) (l : List InterfaceMap) :
    toJson h (i :: l) = i.json h :: toJson h l := rfl

@[simp] theorem toJson_append (h : Lists) (l₁ l₂ : List InterfaceMap) :
    toJson h (l₁ ++ l₂) = toJson h l₁ ++ toJson h l₂ := List.map_append

@[simp] theorem InterfaceMap.json_name (h : Lists) (i : InterfaceMap) : (i.json h).name = i.name := rfl

/-! ## The blacklist -/

/-- `Char.isWhitespace()` of Kotlin on the JVM. -/
def isWhitespace (c : Char) : Bool :=
  c ∈ ['\t', '\n', '\x0b', '\x0c', '\r', '\x1c', '\x1d', '\x1e', '\x1f', ' ', '\u00a0', '\u1680',
    '\u2028', '\u2029', '\u202f', '\u205f', '\u3000'] || ('\u2000' ≤ c && c ≤ '\u200a')

/-- `trim()`. -/
def trim (s : String) : String :=
  .ofList (((s.toList.dropWhile isWhitespace).reverse.dropWhile isWhitespace).reverse)

/-- An object of the blacklist. -/
structure BlackInfo where
  /-- `optString("name")`. -/
  name : String
  /-- `optJSONArray("methods")`, an element that is no string being `none`. -/
  methods : Option (List (Option String))
  deriving DecidableEq, Repr

inductive CardThrowable
  | classCastException
  | jsonException
  | nullPointerException
  deriving DecidableEq, Repr

/-- The receiver of `getCardJsonString`. -/
inductive CardJsonFile
  | null
  | missing
  /-- `JSONObject(readText())` throws. -/
  | malformed
  /-- `policy` as `optJSONObject` has it. An element of an array that is no object is `none`. -/
  | content (policy : Option (LinkedMap String (List (Option BlackInfo))))

/-- `cardBlackListJSONArray`, with null where the function returns null before it or for it. -/
def CardJsonFile.blackList (key : Option String) :
    CardJsonFile → Except CardThrowable (Option (List (Option BlackInfo)))
  | null | missing => .ok none
  | malformed => .error .jsonException
  | content none => .error .nullPointerException
  | content (some policy) => .ok (key.bind policy.get)

/-! ## The loop -/

/-- `blackMethods.contains(method["name"])`. -/
def Named (blackMethods : List (Option String)) (m : MethodValue) : Prop := some m.name ∈ blackMethods

instance (blackMethods : List (Option String)) : DecidablePred (Named blackMethods) :=
  fun m => inferInstanceAs (Decidable (some m.name ∈ blackMethods))

/-- `methods?.forEach`. An element is cast to a map when it is read. -/
def waitingForRemovingMethods (blackMethods : List (Option String)) :
    List MethodValue → Except CardThrowable (List MethodValue)
  | [] => .ok []
  | .string _ :: _ => .error .classCastException
  | .map m :: methods =>
    (waitingForRemovingMethods blackMethods methods).map fun waiting =>
      if Named blackMethods (.map m) then .map m :: waiting else waiting

/-- The body of the loop over the blacklist. -/
def blackStep (blackInfo : BlackInfo) (h : Lists) (array : List InterfaceMap) :
    Except CardThrowable (Lists × List InterfaceMap) :=
  match lastOf InterfaceMap.name (trim blackInfo.name) array with
  | none => .ok (h, array)
  | some blackInterface =>
    match blackInfo.methods, blackInterface.methods with
    | some blackMethods, some r =>
      (waitingForRemovingMethods blackMethods (h.getD r [])).map fun waiting =>
        -- `methods?.removeAll(waitingForRemovingMethods)`, in the list the caller has
        (h.set r ((h.getD r []).filter fun m => m ∉ waiting), array)
    | some _, none => .ok (h, array)
    -- `array.remove(blackInterface)`: the first map that is equal to it, not the one it picked
    | none, _ => .ok (h, array.eraseP fun it => it.json h = blackInterface.json h)

/-- `for (i in 0 until cardBlackListJSONArray.length())`; `getJSONObject` throws at no object. -/
def blackLoop : List (Option BlackInfo) → Lists → List InterfaceMap →
    Lists × Except CardThrowable (List InterfaceMap)
  | [], h, array => (h, .ok array)
  | none :: _, h, _ => (h, .error .jsonException)
  | some blackInfo :: rest, h, array =>
    match blackStep blackInfo h array with
    | .error e => (h, .error e)
    | .ok (h', array') => blackLoop rest h' array'

/-- The memory after the call, and what it returns or throws. -/
def getCardJsonString (file : CardJsonFile) (key : Option String) (h : Lists)
    (jsonlist : List InterfaceMap) : Lists × Except CardThrowable (Option (List InterfaceJSON)) :=
  match file.blackList key with
  | .error e => (h, .error e)
  | .ok none => (h, .ok none)
  | .ok (some blackList) =>
    let (h', result) := blackLoop blackList h jsonlist
    (h', result.map fun array => some (toJson h' array))

/-! ## What an entry does -/

/-- All methods are maps. -/
def InterfaceJSON.Casts (i : InterfaceJSON) : Prop := ∀ l ∈ i.methods, ∀ m ∈ l, ∃ j, m = .map j

/-- Some method is in the list. -/
def InterfaceJSON.Has (i : InterfaceJSON) (blackMethods : List (Option String)) : Prop :=
  ∃ l ∈ i.methods, ∃ m ∈ l, Named blackMethods m

/-- The memory without the methods of one list. -/
def Lists.prune (h : Lists) (blackMethods : List (Option String)) : Option ListRef → Lists
  | none => h
  | some r => h.set r ((h.getD r []).filter fun m => ¬ Named blackMethods m)

theorem waiting_ok {blackMethods : List (Option String)} : ∀ {l : List MethodValue},
    (∀ m ∈ l, ∃ j, m = .map j) →
      waitingForRemovingMethods blackMethods l = .ok (l.filter fun m => Named blackMethods m)
  | [], _ => rfl
  | .string s :: _, h => by
    obtain ⟨j, hj⟩ := h (.string s) (by simp)
    cases hj
  | .map m :: l, h => by
    rw [waitingForRemovingMethods, waiting_ok fun x hx => h x (by simp [hx]), List.filter_cons]
    by_cases hm : Named blackMethods (.map m) <;> simp [Except.map, hm]

theorem waiting_error {blackMethods : List (Option String)} : ∀ {l : List MethodValue},
    ¬ (∀ m ∈ l, ∃ j, m = .map j) →
      waitingForRemovingMethods blackMethods l = .error .classCastException
  | [], h => absurd (by simp) h
  | .string _ :: _, _ => rfl
  | .map m :: l, h => by
    have hl : ¬ ∀ x ∈ l, ∃ j, x = .map j := fun hl => h (by simpa using hl)
    rw [waitingForRemovingMethods, waiting_error hl]
    rfl

/-- What is waiting is what the blacklist names. -/
theorem filter_waiting (blackMethods : List (Option String)) (l : List MethodValue) :
    (l.filter fun m => m ∉ l.filter fun m => Named blackMethods m) =
      l.filter fun m => ¬ Named blackMethods m := by
  apply List.filter_congr
  intro m hm
  simp [hm]

/-- All an entry can do: it picks nothing, it removes an interface, it removes methods of one, or it
throws before it removed any. -/
theorem blackStep_cases (b : BlackInfo) (h : Lists) (array : List InterfaceMap) :
    (lastOf InterfaceMap.name (trim b.name) array = none ∧ blackStep b h array = .ok (h, array)) ∨
    ∃ t, lastOf InterfaceMap.name (trim b.name) array = some t ∧
      ((b.methods = none ∧
          blackStep b h array = .ok (h, array.eraseP fun it => it.json h = t.json h)) ∨
        ∃ ms, b.methods = some ms ∧
          (((t.json h).Casts ∧ blackStep b h array = .ok (h.prune ms t.methods, array)) ∨
            (¬ (t.json h).Casts ∧ blackStep b h array = .error .classCastException))) := by
  cases ht : lastOf InterfaceMap.name (trim b.name) array with
  | none => exact .inl ⟨rfl, by rw [blackStep, ht]⟩
  | some t =>
    refine .inr ⟨t, rfl, ?_⟩
    cases hb : b.methods with
    | none => exact .inl ⟨rfl, by simp only [blackStep, ht, hb]⟩
    | some ms =>
      refine .inr ⟨ms, rfl, ?_⟩
      cases hr : t.methods with
      | none =>
        have hcasts : (t.json h).Casts := by simp [InterfaceJSON.Casts, InterfaceMap.json, hr]
        exact .inl ⟨hcasts, by simp only [blackStep, ht, hb, hr, Lists.prune]⟩
      | some r =>
        have hiff : (t.json h).Casts ↔ ∀ m ∈ h.getD r [], ∃ j, m = .map j := by
          simp [InterfaceJSON.Casts, InterfaceMap.json, hr]
        by_cases hcasts : (t.json h).Casts
        · refine .inl ⟨hcasts, ?_⟩
          simp only [blackStep, ht, hb, hr, waiting_ok (hiff.1 hcasts), Except.map, filter_waiting,
            Lists.prune]
        · refine .inr ⟨hcasts, ?_⟩
          simp only [blackStep, ht, hb, hr, waiting_error fun hl => hcasts (hiff.2 hl), Except.map]

/-- A value without the methods in the list. -/
def InterfaceJSON.prune (blackMethods : List (Option String)) (i : InterfaceJSON) : InterfaceJSON :=
  { i with methods := i.methods.map fun l => l.filter fun m => ¬ Named blackMethods m }

@[simp] theorem InterfaceJSON.prune_name (ms : List (Option String)) (i : InterfaceJSON) :
    (i.prune ms).name = i.name := rfl

namespace Lists

variable (h : Lists) (ms : List (Option String))

theorem getD_prune_some (r : ListRef) :
    (h.prune ms (some r)).getD r [] = (h.getD r []).filter fun m => ¬ Named ms m := by
  by_cases hr : r < h.length
  · simp [prune, hr]
  · simp [prune, hr]

theorem getD_prune_of_ne {o : Option ListRef} {r : ListRef} (hr : o ≠ some r) :
    (h.prune ms o).getD r [] = h.getD r [] := by
  cases o with
  | none => rfl
  | some q =>
    have hne : q ≠ r := fun heq => hr (by rw [heq])
    simp [prune, hne]

theorem json_prune (t : InterfaceMap) : t.json (h.prune ms t.methods) = (t.json h).prune ms := by
  obtain ⟨name, instantiable, types, methods⟩ := t
  cases methods with
  | none => rfl
  | some r => simp only [InterfaceMap.json, InterfaceJSON.prune, Option.map_some, getD_prune_some]

theorem json_prune_of_ne {i : InterfaceMap} {o : Option ListRef}
    (hne : ∀ r, o = some r → i.methods ≠ some r) : i.json (h.prune ms o) = i.json h := by
  unfold InterfaceMap.json
  cases hi : i.methods with
  | none => rfl
  | some r => rw [Option.map_some, getD_prune_of_ne h ms fun ho => hne r ho hi, Option.map_some]

theorem length_prune_le (o : Option ListRef) (r : ListRef) :
    ((h.prune ms o).getD r []).length ≤ (h.getD r []).length := by
  by_cases ho : o = some r
  · subst ho
    rw [getD_prune_some]
    exact List.length_filter_le _ _
  · rw [getD_prune_of_ne h ms ho]

variable {h ms}

/-- Without a method to remove, the list is written as it was. -/
theorem prune_of_not_has {t : InterfaceMap} (hhas : ¬ (t.json h).Has ms) :
    h.prune ms t.methods = h := by
  cases hr : t.methods with
  | none => rfl
  | some r =>
    have hall : ∀ m ∈ h.getD r [], ¬ Named ms m := by
      intro m hm hnamed
      exact hhas ⟨h.getD r [], by simp [InterfaceMap.json, hr], m, hm, hnamed⟩
    rw [prune, List.filter_eq_self.2 (by simpa using hall)]
    by_cases hlen : r < h.length
    · simp [hlen]
    · exact List.set_eq_of_length_le (Nat.le_of_not_lt hlen)

end Lists

/-! ## The frame -/

/-- How many entries before remove interfaces of the name. -/
def wholes (name : String) (before : List BlackInfo) : Nat :=
  before.countP fun b => trim b.name = name ∧ b.methods = none

/-- The interface entry `b` picks: the last of the name, when each entry before has removed one. -/
def picked (jsons : List InterfaceJSON) (before : List BlackInfo) (b : BlackInfo) :
    Option InterfaceJSON :=
  lastAfter (wholes (trim b.name) before) (jsons.filter fun i => i.name = trim b.name)

/-- No entry with methods picks an interface whose methods are strings. -/
def Reached (jsons : List InterfaceJSON) (infos : List BlackInfo) : Prop :=
  ∀ before b after, infos = before ++ b :: after → b.methods ≠ none →
    ∀ t ∈ picked jsons before b, t.Casts

/-- Every entry with methods that is reached picks an interface that has none of them; `before` are
the entries before `rest`. -/
def Untouched (jsons : List InterfaceJSON) (before : List BlackInfo)
    (rest : List (Option BlackInfo)) : Prop :=
  ∀ mid b after ms, rest = mid.map some ++ some b :: after → b.methods = some ms →
    Reached jsons (before ++ mid ++ [b]) → ∀ t ∈ picked jsons (before ++ mid) b, ¬ t.Has ms

theorem wholes_concat (name : String) (before : List BlackInfo) (b : BlackInfo) :
    wholes name (before ++ [b]) =
      wholes name before + if trim b.name = name ∧ b.methods = none then 1 else 0 := by
  simp [wholes, List.countP_append, List.countP_singleton]

theorem reached_nil (jsons : List InterfaceJSON) : Reached jsons [] := by
  intro before b after heq
  simp at heq

theorem Reached.left {jsons : List InterfaceJSON} {before after : List BlackInfo}
    (h : Reached jsons (before ++ after)) : Reached jsons before := by
  rintro s b e rfl hb
  exact h s b (e ++ after) (by simp) hb

theorem reached_concat {jsons : List InterfaceJSON} {before : List BlackInfo} {b : BlackInfo} :
    Reached jsons (before ++ [b]) ↔
      Reached jsons before ∧ (b.methods ≠ none → ∀ t ∈ picked jsons before b, t.Casts) := by
  constructor
  · exact fun h => ⟨h.left, h before b [] rfl⟩
  · rintro ⟨hbefore, hb⟩ s c e heq
    rcases List.eq_nil_or_concat e with rfl | ⟨e, d, rfl⟩
    · obtain ⟨rfl, hcb⟩ := List.append_inj' heq rfl
      obtain rfl : b = c := by simpa using hcb
      exact hb
    · have heq' : before ++ [b] = (s ++ c :: e) ++ [d] := by simpa using heq
      obtain ⟨rfl, -⟩ := List.append_inj' heq' rfl
      exact hbefore s c e rfl

/-- The condition at the first of the entries, and at the others. -/
theorem untouched_cons {jsons : List InterfaceJSON} {before : List BlackInfo} {b : BlackInfo}
    {rest : List (Option BlackInfo)} : Untouched jsons before (some b :: rest) ↔
      (∀ ms, b.methods = some ms → Reached jsons (before ++ [b]) →
        ∀ t ∈ picked jsons before b, ¬ t.Has ms) ∧ Untouched jsons (before ++ [b]) rest := by
  constructor
  · intro h
    refine ⟨fun ms hms hr => ?_, fun mid c after ms heq hms hr => ?_⟩
    · simpa using h [] b rest ms rfl hms (by simpa using hr)
    · simpa using h (b :: mid) c after ms (by simp [heq]) hms (by simpa using hr)
  · rintro ⟨hb, hrest⟩ (_ | ⟨c, mid⟩) d after ms heq hms hr
    · obtain ⟨hdb, -⟩ := List.cons.inj heq
      obtain rfl := Option.some.inj hdb
      simpa using hb ms hms (by simpa using hr)
    · obtain ⟨hcb, htail⟩ := List.cons.inj heq
      obtain rfl := Option.some.inj hcb
      simpa using hrest mid d after ms htail hms (by simpa using hr)

theorem untouched_of_not_reached {jsons : List InterfaceJSON} {before : List BlackInfo}
    {rest : List (Option BlackInfo)} (h : ¬ Reached jsons before) : Untouched jsons before rest :=
  fun _ _ _ _ _ _ hr => absurd (hr.left.left) h

/-- `array` is what the entries before have left of the interfaces, as far as selection can tell. -/
def Left (jsons : List InterfaceJSON) (before : List BlackInfo) (array : List InterfaceJSON) : Prop :=
  ∀ name n, lastAfter n (array.filter fun i => i.name = name) =
    lastAfter (wholes name before + n) (jsons.filter fun i => i.name = name)

namespace Left

variable {jsons array : List InterfaceJSON} {before : List BlackInfo} {b : BlackInfo}

theorem refl (jsons : List InterfaceJSON) : Left jsons [] jsons := by
  intro name n
  simp [wholes]

theorem picked (h : Left jsons before array) :
    lastOf InterfaceJSON.name (trim b.name) array = picked jsons before b := h (trim b.name) 0

/-- An entry with methods removes no interface. -/
theorem concat (h : Left jsons before array) (hb : b.methods ≠ none) :
    Left jsons (before ++ [b]) array := by
  intro name n
  rw [h name n, wholes_concat, if_neg fun hw => hb hw.2, Nat.add_zero]

theorem concat_none (h : Left jsons before array)
    (hnone : lastOf InterfaceJSON.name (trim b.name) array = none) :
    Left jsons (before ++ [b]) array := by
  intro name n
  rw [wholes_concat]
  split_ifs with hw
  · -- nothing of this name is left, nor will be
    have hnil : (array.filter fun i => i.name = name) = [] := by
      rw [← hw.1]
      exact List.getLast?_eq_none_iff.1 hnone
    have hlast := h name (n + 1)
    rw [hnil, lastAfter_nil] at hlast
    rw [hnil, lastAfter_nil, hlast, Nat.add_assoc, Nat.add_comm 1]
  · rw [h name n, Nat.add_zero]

theorem concat_erase {t : InterfaceJSON} (h : Left jsons before array) (hb : b.methods = none)
    (ht : lastOf InterfaceJSON.name (trim b.name) array = some t) :
    Left jsons (before ++ [b]) (array.erase t) := by
  intro name n
  rw [wholes_concat]
  by_cases hname : trim b.name = name
  · subst hname
    rw [if_pos ⟨rfl, hb⟩, lastAfter_erase ht, h, Nat.add_assoc, Nat.add_comm 1]
  · have hne : t.name ≠ name := by
      rw [(mem_of_lastOf ht).2]
      exact hname
    rw [if_neg fun hw => hname hw.1, filter_erase_of_ne hne, h, Nat.add_zero]

end Left

theorem lastOf_json (h : Lists) (name : String) (array : List InterfaceMap) :
    lastOf InterfaceJSON.name name (toJson h array) =
      (lastOf InterfaceMap.name name array).map (InterfaceMap.json h) := by
  rw [toJson, lastOf_map]
  rfl

theorem toJson_eraseP (h : Lists) (t : InterfaceMap) (array : List InterfaceMap) :
    toJson h (array.eraseP fun it => it.json h = t.json h) = (toJson h array).erase (t.json h) := by
  rw [toJson, toJson, List.erase_eq_eraseP', List.eraseP_map]
  rfl

/-- Lists only get shorter. -/
theorem length_blackLoop_le (r : ListRef) : ∀ (rest : List (Option BlackInfo)) (h : Lists)
    (array : List InterfaceMap),
    ((blackLoop rest h array).1.getD r []).length ≤ (h.getD r []).length
  | [], _, _ => Nat.le_refl _
  | none :: _, _, _ => Nat.le_refl _
  | some b :: rest, h, array => by
    rw [blackLoop]
    obtain ⟨-, hstep⟩ | ⟨t, -, ⟨-, hstep⟩ | ⟨ms, -, ⟨-, hstep⟩ | ⟨-, hstep⟩⟩⟩ :=
      blackStep_cases b h array
    · rw [hstep]
      exact length_blackLoop_le r rest h array
    · rw [hstep]
      exact length_blackLoop_le r rest h _
    · rw [hstep]
      exact (length_blackLoop_le r rest _ array).trans (Lists.length_prune_le h ms t.methods r)
    · rw [hstep]

/-- What was removed from an interface is not put back. -/
theorem json_blackLoop_ne {h : Lists} {t : InterfaceMap} {ms : List (Option String)}
    (hhas : (t.json h).Has ms) (rest : List (Option BlackInfo)) (array : List InterfaceMap) :
    t.json (blackLoop rest (h.prune ms t.methods) array).1 ≠ t.json h := by
  obtain ⟨l, hl, m, hm, hnamed⟩ := hhas
  obtain ⟨r, hr, rfl⟩ : ∃ r, t.methods = some r ∧ h.getD r [] = l := by
    simpa [InterfaceMap.json] using hl
  intro heq
  have hsame : (blackLoop rest (h.prune ms t.methods) array).1.getD r [] = h.getD r [] := by
    simpa [InterfaceMap.json, hr] using congrArg InterfaceJSON.methods heq
  have hle := length_blackLoop_le r rest (h.prune ms t.methods) array
  rw [hsame, hr, Lists.getD_prune_some] at hle
  have hlt : ((h.getD r []).filter fun m => ¬ Named ms m).length < (h.getD r []).length :=
    List.length_filter_lt_length_iff_exists.2 ⟨m, hm, by simpa using hnamed⟩
  omega

/-- The loop has come past `before` and removed nothing from a list. -/
structure Past (jsons : List InterfaceJSON) (h : Lists) (before : List BlackInfo)
    (array : List InterfaceMap) : Prop where
  left : Left jsons before (toJson h array)
  reached : Reached jsons before

theorem Past.start (h : Lists) (jsonlist : List InterfaceMap) :
    Past (toJson h jsonlist) h [] jsonlist := ⟨.refl _, reached_nil _⟩

/-- The next entry throws, or writes no list, or takes its methods from the interface it picks. -/
theorem Past.step {jsons : List InterfaceJSON} {h : Lists} {before : List BlackInfo}
    {array : List InterfaceMap} (hpast : Past jsons h before array) (b : BlackInfo) :
    (blackStep b h array = .error .classCastException ∧ ¬ Reached jsons (before ++ [b])) ∨
    (∃ array', blackStep b h array = .ok (h, array') ∧ array' ⊆ array ∧
      Past jsons h (before ++ [b]) array' ∧ (b.methods = none ∨ picked jsons before b = none)) ∨
    ∃ t ms, t ∈ array ∧ b.methods = some ms ∧ picked jsons before b = some (t.json h) ∧
      (t.json h).Casts ∧ blackStep b h array = .ok (h.prune ms t.methods, array) ∧
      Past jsons h (before ++ [b]) array := by
  obtain ⟨hleft, hreached⟩ := hpast
  have hpicked := hleft.picked (b := b)
  obtain ⟨hnone, hstep⟩ | ⟨t, ht, hcases⟩ := blackStep_cases b h array
  · have hlast : lastOf InterfaceJSON.name (trim b.name) (toJson h array) = none := by
      rw [lastOf_json, hnone]
      rfl
    have hb : picked jsons before b = none := hpicked.symm.trans hlast
    exact .inr (.inl ⟨array, hstep, List.Subset.refl _, ⟨hleft.concat_none hlast,
      reached_concat.2 ⟨hreached, fun _ => by simp [hb]⟩⟩, .inr hb⟩)
  · have hlast : lastOf InterfaceJSON.name (trim b.name) (toJson h array) = some (t.json h) := by
      rw [lastOf_json, ht]
      rfl
    have hb : picked jsons before b = some (t.json h) := hpicked.symm.trans hlast
    obtain ⟨hnone, hstep⟩ | ⟨ms, hms, ⟨hcasts, hstep⟩ | ⟨hcasts, hstep⟩⟩ := hcases
    · have hleft' := hleft.concat_erase hnone hlast
      rw [← toJson_eraseP] at hleft'
      exact .inr (.inl ⟨_, hstep, fun i hi => List.eraseP_subset hi, ⟨hleft',
        reached_concat.2 ⟨hreached, fun hne => absurd hnone hne⟩⟩, .inl hnone⟩)
    · exact .inr (.inr ⟨t, ms, (mem_of_lastOf ht).1, hms, hb, hcasts, hstep,
        hleft.concat (by simp [hms]),
        reached_concat.2 ⟨hreached, fun _ => by simpa [hb] using hcasts⟩⟩)
    · exact .inl ⟨hstep, fun hr => hcasts ((reached_concat.1 hr).2 (by simp [hms]) _ hb)⟩

/-- The loop from any of its entries on, as long as nothing was removed from a list. -/
theorem blackLoop_unchanged_iff {jsonlist : List InterfaceMap} {h : Lists} :
    ∀ (rest : List (Option BlackInfo)) (before : List BlackInfo) (array : List InterfaceMap),
      array ⊆ jsonlist → Past (toJson h jsonlist) h before array →
      ((∀ i ∈ jsonlist, i.json (blackLoop rest h array).1 = i.json h) ↔
        Untouched (toJson h jsonlist) before rest)
  | [], _, _, _, _ => by simp [blackLoop, Untouched]
  | none :: rest, before, _, _, _ => by
    have huntouched : Untouched (toJson h jsonlist) before (none :: rest) := by
      rintro (_ | ⟨c, mid⟩) b after ms heq
      · simp at heq
      · simp at heq
    simp [blackLoop, huntouched]
  | some b :: rest, before, array, hsub, hpast => by
    rw [untouched_cons, blackLoop]
    obtain ⟨hstep, hnot⟩ | ⟨array', hstep, hsub', hpast', hb⟩ |
      ⟨t, ms, ht, hms, hb, -, hstep, hpast'⟩ := hpast.step b
    · rw [hstep]
      simp [hnot, untouched_of_not_reached hnot]
    · rw [hstep, blackLoop_unchanged_iff rest (before ++ [b]) array'
        (List.Subset.trans hsub' hsub) hpast']
      rcases hb with hb | hb <;> simp [hb]
    · rw [hstep]
      by_cases hhas : (t.json h).Has ms
      · constructor
        · intro hall
          exact absurd (hall t (hsub ht)) (json_blackLoop_ne hhas rest array)
        · intro hun
          exact absurd hhas (hun.1 ms hms hpast'.reached _ hb)
      · rw [Lists.prune_of_not_has hhas,
          blackLoop_unchanged_iff rest (before ++ [b]) array hsub hpast']
        simp [hms, hb, hhas]

/-- **The caller's interfaces are as before exactly when nothing is removed from one**: no entry
with methods that is reached picks an interface that has one of them. -/
theorem getCardJsonString_unchanged_iff (file : CardJsonFile) (key : Option String) (h : Lists)
    (jsonlist : List InterfaceMap) :
    ((∀ i ∈ jsonlist, i.json (getCardJsonString file key h jsonlist).1 = i.json h) ∧
      toJson (getCardJsonString file key h jsonlist).1 jsonlist = toJson h jsonlist) ↔
    ∀ blackList, file.blackList key = .ok (some blackList) →
      Untouched (toJson h jsonlist) [] blackList := by
  have hmap : ∀ h', toJson h' jsonlist = toJson h jsonlist ↔
      ∀ i ∈ jsonlist, i.json h' = i.json h := fun h' => List.map_inj_left
  rw [hmap, and_self]
  unfold getCardJsonString
  cases hb : file.blackList key with
  | error e => simp
  | ok o =>
    cases o with
    | none => simp
    | some blackList =>
      simp only [Except.ok.injEq, Option.some.injEq, forall_eq']
      exact blackLoop_unchanged_iff blackList [] jsonlist (List.Subset.refl _) (.start _ _)

/-- One extension with the methods `fetch` and `upload`, of which `upload` is on the blacklist. -/
theorem upload_removed_from_caller :
    let m := fun name => MethodValue.map ⟨name, 0, none, none, none, none, none, none, none⟩
    let jsonlist := [⟨"system.fetch", some false, none, some 0⟩]
    let h := [[m "fetch", m "upload"]]
    let file := CardJsonFile.content
      (some (.ofList [("featureBlacklist", [some ⟨"system.fetch", some [some "upload"]⟩])]))
    let h' := (getCardJsonString file (some "featureBlacklist") h jsonlist).1
    ¬ ((∀ i ∈ jsonlist, InterfaceMap.json h' i = InterfaceMap.json h i) ∧
      toJson h' jsonlist = toJson h jsonlist) := by
  decide +kernel

end HybridStack.Pisces
