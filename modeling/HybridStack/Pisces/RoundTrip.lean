import HybridStack.Pisces.ExtensionMetaData

/-!
# Reading `toJSON` back

Each of eight fields of a method has its own rule for being left out, and the five enums go through
one chain of names to ordinals. A reader of the JSON knows which enum a field is of and what a
missing field stands for.

- `read_methodJSON`: the object of one method, read back.
- **`toJSON_round_trip`**: after any `addMethod` calls, the objects read back are the last calls of
  each name; once `validate()` has let them pass, an object that is not instantiable has no instance
  method.
-/

namespace HybridStack.Pisces

/-! ## Ordinals -/

/-- `Mode.values()[n]`. -/
def Mode.ofOrdinal (n : Nat) : Option Mode := [SYNC, ASYNC, CALLBACK, SYNC_CALLBACK][n]?

def MethodType.ofOrdinal (n : Nat) : Option MethodType := [FUNCTION, ATTRIBUTE, EVENT][n]?

def Access.ofOrdinal (n : Nat) : Option Access := [NONE, READ, WRITE][n]?

def Normalize.ofOrdinal (n : Nat) : Option Normalize := [RAW, JSON][n]?

def Multiple.ofOrdinal (n : Nat) : Option Multiple := [SINGLE, MULTI][n]?

theorem Mode.ofOrdinal_name (m : Mode) : Mode.ofOrdinal (getOrdinalBy m.name) = some m := by
  rw [getOrdinalBy_name.1]
  cases m <;> rfl

theorem MethodType.ofOrdinal_name (t : MethodType) :
    MethodType.ofOrdinal (getOrdinalBy t.name) = some t := by
  rw [getOrdinalBy_name.2.1]
  cases t <;> rfl

theorem Access.ofOrdinal_name (a : Access) : Access.ofOrdinal (getOrdinalBy a.name) = some a := by
  rw [getOrdinalBy_name.2.2.1]
  cases a <;> rfl

theorem Normalize.ofOrdinal_name (n : Normalize) :
    Normalize.ofOrdinal (getOrdinalBy n.name) = some n := by
  rw [getOrdinalBy_name.2.2.2.1]
  cases n <;> rfl

theorem Multiple.ofOrdinal_name (m : Multiple) :
    Multiple.ofOrdinal (getOrdinalBy m.name) = some m := by
  rw [getOrdinalBy_name.2.2.2.2]
  cases m <;> rfl

namespace ExtensionMetaData

/-! ## Calls -/

/-- The arguments of an `addMethod` call as `QuickAppMetaDataProcessor.process` passes them: the
enums by the names of their constants. -/
structure Call where
  name : String
  instanceMethod : Bool
  mode : Mode
  type : MethodType
  access : Access
  normalize : Normalize
  multiple : Multiple
  aliasName : Option String
  permissions : Option (List String)
  subAttrs : Option (List String)
  deriving DecidableEq, Repr

def Call.run (e : ExtensionMetaData) (c : Call) : ExtensionMetaData :=
  e.addMethod c.name c.instanceMethod c.mode.name (some c.type.name) (some c.access.name)
    (some c.normalize.name) (some c.multiple.name) c.aliasName c.permissions c.subAttrs

/-- The method a call puts. -/
def Call.method (c : Call) : Method :=
  newMethod c.name c.instanceMethod c.mode.name (some c.type.name) (some c.access.name)
    (some c.normalize.name) (some c.multiple.name) c.aliasName c.permissions c.subAttrs

/-- The calls, one entry for each name. -/
def callMap (calls : List Call) : LinkedMap String Call := .ofList (calls.map fun c => (c.name, c))

/-- The last call with this name. -/
def lastCall (calls : List Call) (name : String) : Option Call :=
  calls.reverse.find? fun c => c.name = name

theorem get_callMap (calls : List Call) (name : String) :
    (callMap calls).get name = lastCall calls name := by
  rw [callMap, LinkedMap.get_ofList, ← List.map_reverse, List.find?_map, Option.map_map]
  exact Option.map_id'

theorem lastCall_name {calls : List Call} {name : String} {c : Call}
    (h : lastCall calls name = some c) : c.name = name := by
  simpa using List.find?_some h

theorem map_name_callMap (calls : List Call) :
    (callMap calls).values.map Call.name = (callMap calls).keys := by
  rw [LinkedMap.values, LinkedMap.keys, List.map_map]
  refine List.map_congr_left fun e he => ?_
  have hget := LinkedMap.mem_entries_iff.1 (show (e.1, e.2) ∈ (callMap calls).entries from he)
  exact lastCall_name ((get_callMap calls e.1).symm.trans hget)

theorem foldl_run : ∀ (calls : List Call) (e : ExtensionMetaData),
    calls.foldl Call.run e =
      { e with methods := e.methods.putAll (calls.map fun c => (c.name, c.method)) }
  | [], e => rfl
  | c :: calls, e => by
    rw [List.foldl_cons, foldl_run calls]
    rfl

theorem values_foldl_run (calls : List Call) (name module : String) :
    (calls.foldl Call.run (new name module)).methods.values =
      (callMap calls).values.map Call.method := by
  rw [foldl_run, callMap, LinkedMap.map_values_ofList, List.map_map]
  rfl

/-! ## Reading -/

/-- A method as the JSON describes it. -/
structure Decoded where
  name : String
  instanceMethod : Bool
  mode : Mode
  type : MethodType
  access : Access
  normalize : Normalize
  multiple : Multiple
  aliasName : String
  subAttrs : List String
  deriving DecidableEq, Repr

/-- What a call comes to, without its permissions; a null alias or array is an empty one. -/
def Call.decoded (c : Call) : Decoded where
  name := c.name
  instanceMethod := c.instanceMethod
  mode := c.mode
  type := c.type
  access := c.access
  normalize := c.normalize
  multiple := c.multiple
  aliasName := c.aliasName.getD ""
  subAttrs := c.subAttrs.getD []

/-- An ordinal in the enum of its field, or what a missing one stands for. -/
def readOrdinal {E : Type} (ofOrdinal : Nat → Option E) (absent : E) : Option Nat → Option E
  | none => some absent
  | some n => ofOrdinal n

/-- `none` when an ordinal is out of its enum. -/
def MethodJSON.read (j : MethodJSON) : Option Decoded := do
  let mode ← Mode.ofOrdinal j.mode
  let type ← readOrdinal MethodType.ofOrdinal .FUNCTION j.type
  let access ← readOrdinal Access.ofOrdinal .NONE j.access
  let normalize ← readOrdinal Normalize.ofOrdinal .JSON j.normalize
  let multiple ← readOrdinal Multiple.ofOrdinal .SINGLE j.multiple
  some ⟨j.name, j.instanceMethod.getD false, mode, type, access, normalize, multiple,
    j.aliasName.getD "", j.subAttrs.getD []⟩

/-- A constant left out for being the default is read as the default. -/
theorem readOrdinal_ordinalUnless {E : Type} {ofOrdinal : Nat → Option E} {name : E → String}
    (h : ∀ x, ofOrdinal (getOrdinalBy (name x)) = some x) (default x : E) :
    readOrdinal ofOrdinal default (ordinalUnless (name default) (name x)) = some x := by
  unfold ordinalUnless
  split_ifs with hname
  · have hx := h x
    rw [hname, h default] at hx
    exact hx
  · exact h x

theorem read_methodJSON (c : Call) : (methodJSON c.method).read = some c.decoded := by
  have hinst : ((methodJSON c.method).instanceMethod).getD false = c.instanceMethod := by
    cases h : c.instanceMethod <;>
      simp [methodJSON, Call.method, newMethod, h, INSTANCE_METHOD_DEFAULT]
  have htype := readOrdinal_ordinalUnless MethodType.ofOrdinal_name .FUNCTION c.type
  have haccess := readOrdinal_ordinalUnless Access.ofOrdinal_name .NONE c.access
  have hnormalize := readOrdinal_ordinalUnless Normalize.ofOrdinal_name .JSON c.normalize
  have hmultiple := readOrdinal_ordinalUnless Multiple.ofOrdinal_name .SINGLE c.multiple
  simp only [MethodJSON.read, hinst]
  simp only [methodJSON, Call.method, newMethod, Option.getD_some, TYPE_DEFAULT, ACCESS_DEFAULT,
    NORMALIZE_DEFAULT, MULTIPLE_DEFAULT, Mode.ofOrdinal_name, htype, haccess, hnormalize, hmultiple,
    getD_filter_ne, Option.bind_eq_bind, Option.bind_some, Call.decoded]

theorem mapM_read : ∀ l : List Call,
    (l.map fun c => methodJSON c.method).mapM MethodJSON.read = some (l.map Call.decoded)
  | [] => rfl
  | c :: l => by
    rw [List.map_cons, List.mapM_cons, read_methodJSON, mapM_read l]
    rfl

/-- The calls that count. -/
theorem mem_values_callMap {calls : List Call} {c : Call} :
    c ∈ (callMap calls).values ↔ lastCall calls c.name = some c := by
  rw [LinkedMap.mem_values_iff]
  simp only [get_callMap]
  constructor
  · rintro ⟨name, h⟩
    rwa [lastCall_name h]
  · exact fun h => ⟨c.name, h⟩

theorem lastCall_isSome {calls : List Call} {c : Call} (h : c ∈ calls) :
    ∃ c', lastCall calls c.name = some c' := by
  rw [← Option.isSome_iff_exists, lastCall, List.find?_isSome]
  exact ⟨c, List.mem_reverse.2 h, by simp⟩

/-- What `validate` rules out. -/
theorem no_instanceMethod {e : ExtensionMetaData} (hv : e.validate = .ok ())
    (hi : e.toJSON.instantiable = false) : ∀ m ∈ e.methods.values, m.instanceMethod = false := by
  intro m hm
  by_contra hinst
  obtain ⟨m', hm', hname⟩ := (validate_ok_iff e).1 hv ⟨m, hm, by simpa using hinst⟩
  have hany : e.toJSON.instantiable = true := by
    simp only [toJSON, List.any_eq_true, beq_iff_eq]
    exact ⟨m', hm', hname⟩
  rw [hi] at hany
  exact Bool.false_ne_true hany

/-- **`toJSON` loses nothing but permissions**: read back, the methods are the last calls of each
name. -/
theorem toJSON_round_trip (name module : String) (calls : List Call) :
    ∃ ds : List Decoded,
      (calls.foldl Call.run (new name module)).toJSON.methods.mapM MethodJSON.read = some ds ∧
      (ds.map Decoded.name).Nodup ∧
      (∀ n, n ∈ ds.map Decoded.name ↔ n ∈ calls.map Call.name) ∧
      (∀ d ∈ ds, ∃ c, lastCall calls d.name = some c ∧ d = c.decoded) ∧
      ((calls.foldl Call.run (new name module)).validate = .ok () →
        (calls.foldl Call.run (new name module)).toJSON.instantiable = false →
          ∀ d ∈ ds, d.instanceMethod = false) := by
  have hvalues := values_foldl_run calls name module
  have hnames : ((callMap calls).values.map Call.decoded).map Decoded.name = (callMap calls).keys := by
    rw [List.map_map, ← map_name_callMap]
    rfl
  refine ⟨(callMap calls).values.map Call.decoded, ?_, ?_, fun n => ?_, fun d hd => ?_, ?_⟩
  · rw [toJSON, hvalues, List.map_map]
    exact mapM_read _
  · rw [hnames]
    exact (callMap calls).nodup
  · rw [hnames, LinkedMap.mem_keys_iff]
    simp only [get_callMap]
    constructor
    · rintro ⟨c, hc⟩
      exact List.mem_map.2 ⟨c, List.mem_reverse.1 (List.mem_of_find?_eq_some hc), lastCall_name hc⟩
    · intro hn
      obtain ⟨c, hc, rfl⟩ := List.mem_map.1 hn
      exact lastCall_isSome hc
  · obtain ⟨c, hc, rfl⟩ := List.mem_map.1 hd
    exact ⟨c, mem_values_callMap.1 hc, rfl⟩
  · intro hv hi d hd
    obtain ⟨c, hc, rfl⟩ := List.mem_map.1 hd
    refine no_instanceMethod hv hi c.method ?_
    rw [hvalues]
    exact List.mem_map_of_mem hc

/-- Two calls of one name, the second with its normalize `RAW`; nothing to instantiate. -/
def twoCalls : List Call :=
  [⟨"m", true, .ASYNC, .EVENT, .READ, .JSON, .MULTI, none, none, some ["a"]⟩,
    ⟨"m", false, .SYNC, .FUNCTION, .NONE, .RAW, .SINGLE, some "", some ["p"], none⟩]

theorem toJSON_round_trip_twoCalls :
    (twoCalls.foldl Call.run (new "f" "F")).validate = .ok () ∧
    (twoCalls.foldl Call.run (new "f" "F")).toJSON.instantiable = false ∧
    ∃ ds : List Decoded,
      (twoCalls.foldl Call.run (new "f" "F")).toJSON.methods.mapM MethodJSON.read = some ds ∧
      (∀ d ∈ ds, ∃ c, lastCall twoCalls d.name = some c ∧ d = c.decoded) ∧
      ∀ d ∈ ds, d.instanceMethod = false := by
  have hv : (twoCalls.foldl Call.run (new "f" "F")).validate = .ok () := by decide
  have hi : (twoCalls.foldl Call.run (new "f" "F")).toJSON.instantiable = false := by decide
  obtain ⟨ds, hread, -, -, hlast, hinst⟩ := toJSON_round_trip "f" "F" twoCalls
  exact ⟨hv, hi, ds, hread, hlast, hinst hv hi⟩

end ExtensionMetaData

end HybridStack.Pisces
