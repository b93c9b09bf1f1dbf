import HybridStack.Lib.HashChains
import HybridStack.QuickJs.Strings

/-!
# Atoms

Names of properties, variables and modules are atoms: numbers that stand for strings. A runtime has a
table of them, with a hash table to find the number of a string, reference counts, and a list of the
numbers that are free.

| here | there |
| --- | --- |
| `Runtime` | the fields of `JSRuntime`, quickjs.c:246-253; `hashNext` is a field of the structs |
| `isNumString` | quickjs.c:2420-2458 |
| `resizeAtomHash` | `JS_ResizeAtomHash`, quickjs.c:2556-2584 |
| `newAtom` | `__JS_NewAtom`, quickjs.c:2691-2844 |
| `findAtom` | `__JS_FindAtom`, quickjs.c:2859-2883 |
| `freeAtom` | `JS_FreeAtom` with `JS_FreeAtomStruct`, quickjs.c:2885-2936, 3246-3250 |
| `newAtomStr`, `newAtomLen` | quickjs.c:2939-2966 |

An atom with its highest bit set is an integer and not in the table; the first `predefined` are made with
the runtime and stay. Left out are allocations that fail, strings that are atoms already, an
`atom_size * 3` or a reference count that does not fit an `int`, and the own number that a symbol has in
`hash_next`.
-/

namespace HybridStack.QuickJs.Atoms

open HashChains Strings

/-! ## The table -/

inductive AtomType
  | string | globalSymbol | symbol | privateSymbol
  deriving DecidableEq, Repr

/-- `JS_ATOM_TYPE_STRING` and the others. -/
def AtomType.code : AtomType → Nat
  | .string => 1
  | .globalSymbol => 2
  | .symbol => 3
  | .privateSymbol => 4

/-- `atom_type < JS_ATOM_TYPE_SYMBOL`: it can be found by its string. -/
def AtomType.hashed (type : AtomType) : Bool := decide (type.code < AtomType.symbol.code)

structure AtomStruct where
  refCount : Nat
  string : JSString
  hash : Nat
  atomType : AtomType

inductive Slot
  | free (next : Nat)
  | used (p : AtomStruct)

def Slot.used? : Slot → Option AtomStruct
  | .free _ => none
  | .used p => some p

def Slot.next : Slot → Nat
  | .free next => next
  | .used _ => 0

structure Runtime where
  atomHash : List Nat
  hashNext : Nat → Nat
  atomArray : List Slot
  atomFreeIndex : Nat
  atomCount : Nat
  atomCountResize : Nat

def atomMax : Nat := 2 ^ 30 - 1

def atomTagInt : Nat := 2 ^ 31

/-- The units, masked. -/
def hashString (units : List UInt16) (h : Nat) : Nat :=
  units.foldl (fun h c => (h * 263 + c.toNat) % 2 ^ 32) h % 2 ^ 30

/-- The digits behind the first. -/
def numLoop (n : Nat) : List UInt16 → Option Nat
  | [] => some n
  | c :: l =>
    if 48 ≤ c.toNat ∧ c.toNat ≤ 57 then
      if (n * 10 + (c.toNat - 48)) >>> 32 ≠ 0 then none else numLoop (n * 10 + (c.toNat - 48)) l
    else none

def isNumString (units : List UInt16) : Option Nat :=
  if units.length > 10 then none
  else
    match units with
    | [] => none
    | c :: l =>
      if 48 ≤ c.toNat ∧ c.toNat ≤ 57 then
        if c.toNat = 48 then if l = [] then some 0 else none
        else numLoop (c.toNat - 48) l
      else none

/-- `slots` with free ones behind them. -/
def newSlots (slots : List Slot) (newSize : Nat) : List Slot :=
  slots ++ (List.range' slots.length (newSize - slots.length)).map fun i =>
    .free (if i = newSize - 1 then 0 else i + 1)

namespace Runtime

/-- The first lines of `JS_InitAtoms`. -/
def initial : Runtime where
  atomHash := List.replicate 256 0
  hashNext _ := 0
  atomArray := []
  atomFreeIndex := 0
  atomCount := 0
  atomCountResize := 256 * 2

variable (rt : Runtime)

def atom? (i : Nat) : Option AtomStruct := rt.atomArray[i]?.bind Slot.used?

def freeNext (i : Nat) : Nat := (rt.atomArray[i]?.map Slot.next).getD 0

def table : Table := ⟨rt.atomHash, rt.hashNext⟩

def withTable (t : Table) : Runtime := { rt with atomHash := t.heads, hashNext := t.next }

def hashOf (i : Nat) : Nat := ((rt.atom? i).map AtomStruct.hash).getD 0

/-- The chain of a hash is searched. -/
def lookup (h : Nat) (test : AtomStruct → Bool) : Nat :=
  search rt.hashNext (fun i => (rt.atom? i).any test) rt.atomArray.length
    (rt.table.head (h % rt.atomHash.length))

def setRefCount (i : Nat) (f : Nat → Nat) : Runtime :=
  match rt.atom? i with
  | some p => { rt with atomArray := rt.atomArray.set i (.used { p with refCount := f p.refCount }) }
  | none => rt

def resizeAtomHash (n : Nat) : Runtime :=
  { rt.withTable (rt.table.resize rt.hashOf rt.atomArray.length n) with atomCountResize := n * 2 }

/-- The struct of `JS_ATOM_NULL`. -/
def nullAtom : AtomStruct := ⟨1, ⟨true, [], fun h => nomatch h⟩, 0, .symbol⟩

/-- There is a free number afterwards, unless there are too many. -/
def grow : Option Runtime :=
  if rt.atomFreeIndex ≠ 0 then some rt
  else
    let newSize := max 211 (rt.atomArray.length * 3 / 2)
    if newSize > atomMax then none
    else
      let array := if rt.atomArray = [] then [.used nullAtom] else rt.atomArray
      some { rt with
        atomArray := newSlots array newSize
        atomFreeIndex := array.length
        atomCount := if rt.atomArray = [] then rt.atomCount + 1 else rt.atomCount }

/-- "use an already free entry". -/
def fill (p : AtomStruct) : Runtime :=
  { rt with
    atomFreeIndex := rt.freeNext rt.atomFreeIndex
    atomArray := rt.atomArray.set rt.atomFreeIndex (.used p)
    atomCount := rt.atomCount + 1 }

/-- The entry is filled, and linked in front of its chain if it is to be found. -/
def use (p : AtomStruct) : Runtime :=
  if p.atomType = .symbol then rt.fill p
  else
    let rt' := (rt.fill p).withTable
      (rt.table.insert (p.hash % rt.atomHash.length) rt.atomFreeIndex)
    if rt'.atomCount ≥ rt'.atomCountResize then rt'.resizeAtomHash (rt'.atomHash.length * 2) else rt'

/-- The new atom, or `JS_ATOM_NULL`. -/
def addAtom (p : AtomStruct) : Runtime × Nat :=
  match rt.grow with
  | none => (rt, 0)
  | some rt => (rt.use p, rt.atomFreeIndex)

variable (predefined : Nat)

/-- `__JS_AtomIsConst`, which integers are too. -/
def isConst (v : Nat) : Bool := decide (v < predefined + 1 ∨ atomTagInt ≤ v)

def dupAtom (v : Nat) : Runtime := if isConst predefined v then rt else rt.setRefCount v (· + 1)

def newAtom (str : JSString) (type : AtomType) : Runtime × Nat :=
  if type.hashed then
    let h := hashString str.units type.code
    -- js_string_memcmp compares units of whatever widths
    let i := rt.lookup h fun p =>
      decide (p.hash = h ∧ p.atomType = type ∧ p.string.units = str.units)
    if i ≠ 0 then (rt.dupAtom predefined i, i) else rt.addAtom ⟨1, str, h, type⟩
  else rt.addAtom ⟨1, str, if type = .privateSymbol then 1 else 0, .symbol⟩

/-- An 8 bit string is compared with the bytes as they are. -/
def findAtom (str : List UInt8) : Runtime × Nat :=
  let h := hashString (str.map UInt8.toUInt16) AtomType.string.code
  let i := rt.lookup h fun p =>
    decide (p.hash = h ∧ p.atomType = .string ∧ p.string.isWideChar = false ∧
      p.string.units = str.map UInt8.toUInt16)
  (if i ≠ 0 then rt.dupAtom predefined i else rt, i)

def newAtomStr (p : JSString) : Runtime × Nat :=
  match isNumString p.units with
  | some n => if n < atomTagInt then (rt, atomTagInt + n) else rt.newAtom predefined p .string
  | none => rt.newAtom predefined p .string

def isDigit (b : UInt8) : Bool := decide (48 ≤ b ∧ b ≤ 57)

def newAtomLen (str : List UInt8) : Runtime × Nat :=
  if str.head?.any isDigit then rt.newAtomStr predefined (newStringLen str)
  else
    let found := rt.findAtom predefined str
    if found.2 ≠ 0 then found else rt.newAtomStr predefined (newStringLen str)

/-- "insert in free atom list", once the struct is out of its chain. -/
def freeAtomStruct (i : Nat) (p : AtomStruct) : Runtime :=
  let rt' :=
    if p.atomType = .symbol then rt
    else rt.withTable (rt.table.remove rt.atomArray.length (p.hash % rt.atomHash.length) i)
  { rt' with
    atomArray := rt'.atomArray.set i (.free rt'.atomFreeIndex)
    atomFreeIndex := i
    atomCount := rt'.atomCount - 1 }

def freeAtom (v : Nat) : Runtime :=
  if isConst predefined v then rt
  else
    match rt.atom? v with
    | some p => if p.refCount - 1 > 0 then rt.setRefCount v (· - 1) else rt.freeAtomStruct v p
    | none => rt

end Runtime

/-! ## The invariant -/

/-- Of a type that is stored, and referred to. -/
def AtomStruct.Ok (p : AtomStruct) : Prop :=
  (p.atomType.hashed = true ∨ p.atomType = .symbol) ∧ 0 < p.refCount

namespace Runtime

/-- The atom is in the hash table. -/
def Hashed (rt : Runtime) (i : Nat) : Prop := ∃ p, rt.atom? i = some p ∧ p.atomType.hashed = true

structure Inv (rt : Runtime) : Prop where
  holds : rt.table.Holds rt.hashOf rt.Hashed
  hash_eq : ∀ i p, rt.atom? i = some p → p.atomType.hashed = true →
    p.hash = hashString p.string.units p.atomType.code
  ok : ∀ i p, rt.atom? i = some p → p.Ok
  /-- No string has two atoms of one type. -/
  unique : ∀ i j p q, rt.atom? i = some p → rt.atom? j = some q → p.atomType.hashed = true →
    q.atomType = p.atomType → q.string.units = p.string.units → i = j
  free : ∃ l, Chain rt.freeNext rt.atomFreeIndex l ∧ l.Nodup ∧
    ∀ i ∈ l, ∃ next, rt.atomArray[i]? = some (.free next)
  /-- A number that could be an integer is not in the table. -/
  numbers : ∀ i p n, rt.atom? i = some p → p.atomType = .string →
    isNumString p.string.units = some n → atomTagInt ≤ n
  size : rt.atomArray.length ≤ atomMax

/-- What was an atom is still one, of the same string. -/
def Keeps (rt rt' : Runtime) : Prop :=
  ∀ i p, rt.atom? i = some p → ∃ p', rt'.atom? i = some p' ∧ p'.string = p.string ∧
    p'.atomType = p.atomType

variable {rt rt' rt'' : Runtime}

theorem Keeps.refl (rt : Runtime) : rt.Keeps rt := fun _ p h => ⟨p, h, rfl, rfl⟩

theorem Keeps.trans (h : rt.Keeps rt') (h' : rt'.Keeps rt'') : rt.Keeps rt'' := by
  intro i p hp
  obtain ⟨p', hp', hs', ht'⟩ := h i p hp
  obtain ⟨p'', hp'', hs'', ht''⟩ := h' i p' hp'
  exact ⟨p'', hp'', hs''.trans hs', ht''.trans ht'⟩

theorem lt_of_atom? {i : Nat} {p : AtomStruct} (h : rt.atom? i = some p) : i < rt.atomArray.length := by
  by_contra hlt
  unfold atom? at h
  rw [List.getElem?_eq_none (Nat.not_lt.1 hlt)] at h
  cases h

theorem Hashed.lt {i : Nat} (h : rt.Hashed i) : i < rt.atomArray.length := by
  obtain ⟨p, hp, -⟩ := h
  exact lt_of_atom? hp

theorem hashOf_eq {i : Nat} {p : AtomStruct} (h : rt.atom? i = some p) : rt.hashOf i = p.hash := by
  unfold hashOf
  rw [h]
  rfl

/-- The table has been written to in one place. -/
theorem atom?_set {s : Slot} {i : Nat} (hi : i < rt.atomArray.length)
    (h : rt'.atomArray = rt.atomArray.set i s) (j : Nat) :
    rt'.atom? j = if i = j then s.used? else rt.atom? j := by
  unfold atom?
  rw [h, List.getElem?_set]
  by_cases hij : i = j
  · subst hij
    rw [if_pos rfl, if_pos hi, if_pos rfl]
    rfl
  · rw [if_neg hij, if_neg hij]

/-- The hash table has the same atoms in it; others may have been added elsewhere. -/
structure SameAtoms (rt rt' : Runtime) : Prop where
  forth : ∀ i p, rt.atom? i = some p → ∃ p', rt'.atom? i = some p' ∧ p'.string = p.string ∧
    p'.hash = p.hash ∧ p'.atomType = p.atomType
  back : ∀ i p', rt'.atom? i = some p' → p'.atomType.hashed = true → ∃ p, rt.atom? i = some p ∧
    p'.string = p.string ∧ p'.hash = p.hash ∧ p'.atomType = p.atomType

theorem SameAtoms.keeps (h : rt.SameAtoms rt') : rt.Keeps rt' := by
  intro i p hp
  obtain ⟨p', hp', hs, -, ht⟩ := h.forth i p hp
  exact ⟨p', hp', hs, ht⟩

theorem SameAtoms.holds (h : rt.SameAtoms rt') {t : Table} (ht : t.Holds rt.hashOf rt.Hashed) :
    t.Holds rt'.hashOf rt'.Hashed := by
  apply ht.congr
  · intro i
    constructor
    · rintro ⟨p', hp', hh⟩
      obtain ⟨p, hp, -, -, htype⟩ := h.back i p' hp' hh
      exact ⟨p, hp, htype ▸ hh⟩
    · rintro ⟨p, hp, hh⟩
      obtain ⟨p', hp', -, -, htype⟩ := h.forth i p hp
      exact ⟨p', hp', htype ▸ hh⟩
  · rintro i ⟨p, hp, -⟩
    obtain ⟨p', hp', -, hhash, -⟩ := h.forth i p hp
    rw [hashOf_eq hp', hashOf_eq hp, hhash]

theorem SameAtoms.inv (h : rt.SameAtoms rt') (hinv : rt.Inv)
    (hholds : rt'.table.Holds rt.hashOf rt.Hashed)
    (hok : ∀ i p, rt'.atom? i = some p → p.Ok)
    (hfree : ∃ l, Chain rt'.freeNext rt'.atomFreeIndex l ∧ l.Nodup ∧
      ∀ i ∈ l, ∃ next, rt'.atomArray[i]? = some (.free next))
    (hsize : rt'.atomArray.length ≤ atomMax) : rt'.Inv where
  holds := h.holds hholds
  hash_eq i p' hp' hh := by
    obtain ⟨p, hp, hs, hhash, ht⟩ := h.back i p' hp' hh
    rw [hs, hhash, ht]
    exact hinv.hash_eq i p hp (ht ▸ hh)
  ok := hok
  unique i j p' q' hp' hq' hh htype hunits := by
    obtain ⟨p, hp, hs, -, ht⟩ := h.back i p' hp' hh
    obtain ⟨q, hq, hsq, -, htq⟩ := h.back j q' hq' (htype ▸ hh)
    rw [ht, htq] at htype
    rw [hs, hsq] at hunits
    exact hinv.unique i j p q hp hq (ht ▸ hh) htype hunits
  free := hfree
  numbers i p' n hp' htype hn := by
    obtain ⟨p, hp, hs, -, ht⟩ := h.back i p' hp' (by rw [htype]; rfl)
    exact hinv.numbers i p n hp (ht ▸ htype) (hs ▸ hn)
  size := hsize

theorem initial_inv : initial.Inv where
  holds := by
    refine ⟨?_, ?_⟩
    · show 0 < (List.replicate 256 0).length
      rw [List.length_replicate]
      omega
    intro b hb
    refine ⟨[], ?_, List.nodup_nil, ?_⟩
    · show (List.replicate 256 0).getD b 0 = 0
      rw [List.getD_eq_getElem?_getD, List.getElem?_replicate]
      split
      next => rfl
      next => rfl
    · intro i
      constructor
      · exact fun h => absurd h List.not_mem_nil
      · rintro ⟨⟨p, hp, -⟩, -⟩
        cases hp
  hash_eq i p hp := by cases hp
  ok i p hp := by cases hp
  unique i j p q hp := by cases hp
  free := ⟨[], rfl, List.nodup_nil, fun i hi => absurd hi List.not_mem_nil⟩
  numbers i p n hp := by cases hp
  size := Nat.zero_le _

/-! ## What the steps do -/

theorem free_of_atom? {i : Nat} {p : AtomStruct} (h : rt.atom? i = some p) :
    ¬ ∃ next, rt.atomArray[i]? = some (.free next) := by
  rintro ⟨next, hfree⟩
  unfold atom? at h
  rw [hfree] at h
  cases h

/-- The free list is about slots that are not written to. -/
theorem free_set {l : List Nat} {s : Slot} {i j : Nat} (hchain : Chain rt.freeNext j l)
    (hfree : ∀ i ∈ l, ∃ next, rt.atomArray[i]? = some (.free next)) (hi : i ∉ l)
    (h : rt'.atomArray = rt.atomArray.set i s) :
    Chain rt'.freeNext j l ∧ ∀ i ∈ l, ∃ next, rt'.atomArray[i]? = some (.free next) := by
  have hget : ∀ k ∈ l, rt'.atomArray[k]? = rt.atomArray[k]? := by
    intro k hk
    rw [h, List.getElem?_set_ne]
    rintro rfl
    exact hi hk
  constructor
  · apply hchain.congr
    intro k hk
    unfold freeNext
    rw [hget k hk]
  · intro k hk
    rw [hget k hk]
    exact hfree k hk

theorem setRefCount_spec (h : rt.Inv) (v : Nat) (f : Nat → Nat)
    (hf : ∀ p, rt.atom? v = some p → 0 < f p.refCount) :
    (rt.setRefCount v f).Inv ∧ rt.Keeps (rt.setRefCount v f) ∧
      ∀ i, (rt.setRefCount v f).atom? i =
        if v = i then (rt.atom? i).map fun p => { p with refCount := f p.refCount } else rt.atom? i := by
  have hatom : ∀ i, (rt.setRefCount v f).atom? i =
      if v = i then (rt.atom? i).map fun p => { p with refCount := f p.refCount } else rt.atom? i := by
    intro i
    unfold setRefCount
    split
    next p hp =>
      rw [atom?_set (lt_of_atom? hp) rfl]
      split
      next hi =>
        subst hi
        rw [hp]
        rfl
      next => rfl
    next hnone =>
      split
      next hi =>
        subst hi
        rw [hnone]
        rfl
      next => rfl
  have hsame : rt.SameAtoms (rt.setRefCount v f) := by
    constructor
    · intro i p hp
      rw [hatom, hp]
      split
      next => exact ⟨_, rfl, rfl, rfl, rfl⟩
      next => exact ⟨_, rfl, rfl, rfl, rfl⟩
    · intro i p' hp' _
      rw [hatom] at hp'
      split at hp'
      next =>
        obtain ⟨p, hp, rfl⟩ := Option.map_eq_some_iff.1 hp'
        exact ⟨p, hp, rfl, rfl, rfl⟩
      next => exact ⟨p', hp', rfl, rfl, rfl⟩
  have hrest : (rt.setRefCount v f).table = rt.table ∧
      (rt.setRefCount v f).atomFreeIndex = rt.atomFreeIndex ∧
      (rt.setRefCount v f).atomArray.length = rt.atomArray.length := by
    unfold setRefCount
    split
    next => exact ⟨rfl, rfl, List.length_set⟩
    next => exact ⟨rfl, rfl, rfl⟩
  refine ⟨hsame.inv h ?_ ?_ ?_ ?_, hsame.keeps, hatom⟩
  · rw [hrest.1]
    exact h.holds
  · intro i p' hp'
    rw [hatom] at hp'
    split at hp'
    next hi =>
      obtain ⟨p, hp, rfl⟩ := Option.map_eq_some_iff.1 hp'
      exact ⟨(h.ok i p hp).1, hf p (hi ▸ hp)⟩
    next => exact h.ok i p' hp'
  · rw [hrest.2.1]
    obtain ⟨l, hchain, hnodup, hfree⟩ := h.free
    refine ⟨l, ?_⟩
    unfold setRefCount
    split
    next p hp =>
      have hv : v ∉ l := fun hv => free_of_atom? hp (hfree v hv)
      exact ⟨(free_set hchain hfree hv rfl).1, hnodup, (free_set hchain hfree hv rfl).2⟩
    next => exact ⟨hchain, hnodup, hfree⟩
  · rw [hrest.2.2]
    exact h.size

theorem resizeAtomHash_spec (h : rt.Inv) {n : Nat} (hn : 0 < n) :
    (rt.resizeAtomHash n).Inv ∧ (rt.resizeAtomHash n).atomArray = rt.atomArray := by
  have hsame : rt.SameAtoms (rt.resizeAtomHash n) := by
    constructor
    · exact fun i p hp => ⟨p, hp, rfl, rfl, rfl⟩
    · exact fun i p hp _ => ⟨p, hp, rfl, rfl, rfl⟩
  refine ⟨hsame.inv h ?_ h.ok h.free h.size, rfl⟩
  exact h.holds.resize hn fun i hi => hi.lt

/-- The new slots, the last `k` of them, are chained. -/
theorem chain_newSlots (start newSize k : Nat) (hk : start + k ≤ newSize) (h0 : 0 < start)
    (hslots : ∀ i, start ≤ i → i < newSize →
      rt.atomArray[i]? = some (.free (if i = newSize - 1 then 0 else i + 1))) :
    Chain rt.freeNext (if k = 0 then 0 else newSize - k) (List.range' (newSize - k) k) := by
  induction k with
  | zero => rfl
  | succ k ih =>
    rw [if_neg (Nat.succ_ne_zero k), List.range'_succ]
    refine ⟨rfl, by omega, ?_⟩
    have hnext : rt.freeNext (newSize - (k + 1)) = if k = 0 then 0 else newSize - k := by
      unfold freeNext
      rw [hslots _ (by omega) (by omega)]
      show (if newSize - (k + 1) = newSize - 1 then 0 else newSize - (k + 1) + 1) = _
      by_cases h : k = 0
      · subst h
        rw [if_pos rfl, if_pos rfl]
      · rw [if_neg (by omega), if_neg h]
        omega
    have hpos : newSize - (k + 1) + 1 = newSize - k := by omega
    rw [hnext, hpos]
    exact ih (by omega)

theorem newSlots_old {slots : List Slot} {newSize i : Nat} (hi : i < slots.length) :
    (newSlots slots newSize)[i]? = slots[i]? := by
  unfold newSlots
  exact List.getElem?_append_left hi

theorem newSlots_new {slots : List Slot} {newSize i : Nat} (hlo : slots.length ≤ i) (hhi : i < newSize) :
    (newSlots slots newSize)[i]? = some (.free (if i = newSize - 1 then 0 else i + 1)) := by
  unfold newSlots
  rw [List.getElem?_append_right hlo, List.getElem?_map, List.getElem?_range' (by omega),
    Nat.one_mul, Nat.add_sub_cancel' hlo]
  rfl

theorem length_newSlots {slots : List Slot} {newSize : Nat} (h : slots.length ≤ newSize) :
    (newSlots slots newSize).length = newSize := by
  unfold newSlots
  rw [List.length_append, List.length_map, List.length_range']
  omega

/-- A free slot is no atom. -/
theorem atom?_newSlots {slots : List Slot} {newSize i : Nat} {p : AtomStruct}
    (h : (newSlots slots newSize)[i]?.bind Slot.used? = some p) : slots[i]?.bind Slot.used? = some p := by
  by_cases hi : i < slots.length
  · rw [newSlots_old hi] at h
    exact h
  · exfalso
    unfold newSlots at h
    rw [List.getElem?_append_right (Nat.not_lt.1 hi), List.getElem?_map] at h
    cases hget : (List.range' slots.length (newSize - slots.length))[i - slots.length]? with
    | none => simp [hget] at h
    | some k => simp [hget, Slot.used?] at h

theorem grow_spec (h : rt.Inv) (hgrow : rt.grow = some rt') :
    rt'.Inv ∧ rt.SameAtoms rt' ∧ rt'.atomFreeIndex ≠ 0 ∧
      ∀ i, i ≠ 0 → rt'.atom? i = rt.atom? i := by
  unfold grow at hgrow
  split at hgrow
  next hfree =>
    obtain rfl := Option.some.inj hgrow
    exact ⟨h, ⟨fun i p hp => ⟨p, hp, rfl, rfl, rfl⟩, fun i p hp _ => ⟨p, hp, rfl, rfl, rfl⟩⟩, hfree,
      fun _ _ => rfl⟩
  next hfree =>
    dsimp only at hgrow
    obtain ⟨hmax, hgrow⟩ := Option.ite_none_left_eq_some.1 hgrow
    generalize hslots : (if rt.atomArray = [] then [Slot.used nullAtom] else rt.atomArray) = slots at hgrow
    generalize hsize : max 211 (rt.atomArray.length * 3 / 2) = newSize at hmax hgrow
    have hold : ∀ i p, rt.atom? i = some p → slots[i]?.bind Slot.used? = some p := by
      intro i p hp
      have hlt := lt_of_atom? hp
      rw [if_neg (List.ne_nil_of_length_pos (by omega))] at hslots
      rw [← hslots]
      exact hp
    have hback : ∀ i p, slots[i]?.bind Slot.used? = some p →
        rt.atom? i = some p ∨ i = 0 ∧ p = nullAtom := by
      intro i p hp
      split at hslots
      next =>
        rw [← hslots] at hp
        cases i with
        | zero => exact Or.inr ⟨rfl, (Option.some.inj hp).symm⟩
        | succ i => cases hp
      next =>
        rw [← hslots] at hp
        exact Or.inl hp
    have hpos : 0 < slots.length ∧ slots.length < newSize := by
      split at hslots
      next hnil =>
        rw [← hslots, ← hsize, hnil]
        decide
      next hne =>
        have hlt := List.length_pos_iff.2 hne
        rw [← hslots, ← hsize]
        omega
    have harray : rt'.atomArray = newSlots slots newSize := by
      rw [← Option.some.inj hgrow]
    have hatom : ∀ i p, rt.atom? i = some p → rt'.atom? i = some p := by
      intro i p hp
      have hs := hold i p hp
      have hlt : i < slots.length := by
        by_contra hge
        rw [List.getElem?_eq_none (Nat.not_lt.1 hge)] at hs
        cases hs
      unfold atom?
      rw [harray, newSlots_old hlt]
      exact hs
    have hatom' : ∀ i p, rt'.atom? i = some p → rt.atom? i = some p ∨ i = 0 ∧ p = nullAtom := by
      intro i p hp
      unfold atom? at hp
      rw [harray] at hp
      exact hback i p (atom?_newSlots hp)
    have hsame : rt.SameAtoms rt' := by
      constructor
      · exact fun i p hp => ⟨p, hatom i p hp, rfl, rfl, rfl⟩
      · intro i p hp hh
        rcases hatom' i p hp with hp | ⟨-, rfl⟩
        · exact ⟨p, hp, rfl, rfl, rfl⟩
        · cases hh
    have hnew : ∀ i, slots.length ≤ i → i < newSize →
        rt'.atomArray[i]? = some (.free (if i = newSize - 1 then 0 else i + 1)) := by
      intro i hlo hhi
      rw [harray]
      exact newSlots_new hlo hhi
    have hchain := chain_newSlots slots.length newSize (newSize - slots.length) (by omega) hpos.1 hnew
    rw [if_neg (by omega), Nat.sub_sub_self (Nat.le_of_lt hpos.2)] at hchain
    have hindex : rt'.atomFreeIndex = slots.length := by
      rw [← Option.some.inj hgrow]
    refine ⟨hsame.inv h ?_ ?_ ?_ ?_, hsame, by omega, ?_⟩
    · rw [← Option.some.inj hgrow]
      exact h.holds
    · intro i p hp
      rcases hatom' i p hp with hp | ⟨-, rfl⟩
      · exact h.ok i p hp
      · exact ⟨Or.inr rfl, Nat.one_pos⟩
    · rw [hindex]
      refine ⟨_, hchain, List.nodup_range', ?_⟩
      intro i hi
      obtain ⟨hlo, hhi⟩ := List.mem_range'_1.1 hi
      exact ⟨_, by rw [harray, newSlots_new hlo (by omega)]⟩
    · rw [harray, length_newSlots (by omega)]
      omega
    · intro i hi
      cases hp : rt.atom? i with
      | some p => exact hatom i p hp
      | none =>
        cases hp' : rt'.atom? i with
        | none => rfl
        | some p =>
          rcases hatom' i p hp' with hp'' | ⟨h0, -⟩
          · rw [hp] at hp''
            cases hp''
          · exact absurd h0 hi

/-- `p` may be put into the table. -/
structure Fits (rt : Runtime) (p : AtomStruct) : Prop where
  ok : p.Ok
  hash_eq : p.atomType.hashed = true → p.hash = hashString p.string.units p.atomType.code
  fresh : p.atomType.hashed = true → ∀ i q, rt.atom? i = some q → q.atomType = p.atomType →
    q.string.units ≠ p.string.units
  numbers : ∀ n, p.atomType = .string → isNumString p.string.units = some n → atomTagInt ≤ n

/-- The struct is in its slot, and that is off the free list. -/
theorem fill_spec (h : rt.Inv) (h0 : rt.atomFreeIndex ≠ 0) (p : AtomStruct) :
    rt.atom? rt.atomFreeIndex = none ∧
      (∀ i, (rt.fill p).atom? i = if rt.atomFreeIndex = i then some p else rt.atom? i) ∧
      ∃ l, Chain (rt.fill p).freeNext (rt.fill p).atomFreeIndex l ∧ l.Nodup ∧
        ∀ i ∈ l, ∃ next, (rt.fill p).atomArray[i]? = some (.free next) := by
  obtain ⟨l, hchain, hnodup, hfree⟩ := h.free
  cases l with
  | nil => exact absurd hchain h0
  | cons i l =>
    obtain ⟨hi, -, hchain⟩ := hchain
    obtain ⟨hil, hnodup⟩ := List.nodup_cons.1 hnodup
    obtain ⟨next, hslot⟩ := hfree i List.mem_cons_self
    rw [← hi] at hslot hil
    have hrest : Chain (rt.fill p).freeNext _ l ∧ _ :=
      free_set hchain (fun j hj => hfree j (List.mem_cons_of_mem _ hj)) hil rfl
    refine ⟨?_, atom?_set (s := .used p) (List.getElem?_eq_some_iff.1 hslot).1 rfl, l, hrest.1, hnodup, hrest.2⟩
    unfold atom?
    rw [hslot]
    rfl

theorem keeps_of_filled {i : Nat} {p : AtomStruct} (hnone : rt.atom? i = none)
    (hatom : ∀ j, rt'.atom? j = if i = j then some p else rt.atom? j) : rt.Keeps rt' := by
  intro j q hq
  rw [hatom]
  split
  next hij =>
    subst hij
    rw [hnone] at hq
    cases hq
  next => exact ⟨q, hq, rfl, rfl⟩

/-- A struct that is put into a free slot and into its chain. -/
theorem inv_of_inserted (h : rt.Inv) {i : Nat} (hi0 : i ≠ 0) {p : AtomStruct} (hp : rt.Fits p)
    (hh : p.atomType.hashed = true) (hnone : rt.atom? i = none)
    (hatom : ∀ j, rt'.atom? j = if i = j then some p else rt.atom? j)
    (htable : rt'.table = rt.table.insert (p.hash % rt.atomHash.length) i)
    (hfree : ∃ l, Chain rt'.freeNext rt'.atomFreeIndex l ∧ l.Nodup ∧
      ∀ i ∈ l, ∃ next, rt'.atomArray[i]? = some (.free next))
    (hsize : rt'.atomArray.length ≤ atomMax) : rt'.Inv := by
  have hnew : rt'.atom? i = some p := by rw [hatom, if_pos rfl]
  have hold : ∀ j q, rt.atom? j = some q → j ≠ i ∧ rt'.atom? j = some q := by
    intro j q hq
    have hne : j ≠ i := by
      rintro rfl
      rw [hnone] at hq
      cases hq
    refine ⟨hne, ?_⟩
    rw [hatom, if_neg hne.symm, hq]
  have hcase : ∀ j q, rt'.atom? j = some q → j = i ∧ q = p ∨ j ≠ i ∧ rt.atom? j = some q := by
    intro j q hq
    rw [hatom] at hq
    split at hq
    next hij => exact Or.inl ⟨hij.symm, (Option.some.inj hq).symm⟩
    next hij => exact Or.inr ⟨Ne.symm hij, hq⟩
  refine ⟨?_, ?_, ?_, ?_, hfree, ?_, hsize⟩
  · -- the chain is that of the struct's hash
    have hkey : rt.table.Holds rt'.hashOf rt.Hashed := by
      apply h.holds.congr (fun _ => Iff.rfl)
      rintro j ⟨q, hq, -⟩
      rw [hashOf_eq (hold j q hq).2, hashOf_eq hq]
    have hnot : ¬ rt.Hashed i := by
      rintro ⟨q, hq, -⟩
      rw [hnone] at hq
      cases hq
    have hins := hkey.insert hnot hi0
    rw [hashOf_eq hnew] at hins
    rw [htable]
    apply hins.congr _ (fun _ _ => rfl)
    intro j
    constructor
    · rintro ⟨q, hq, hqh⟩
      rcases hcase j q hq with ⟨rfl, -⟩ | ⟨-, hq⟩
      · exact Or.inr rfl
      · exact Or.inl ⟨q, hq, hqh⟩
    · rintro (⟨q, hq, hqh⟩ | rfl)
      · exact ⟨q, (hold j q hq).2, hqh⟩
      · exact ⟨p, hnew, hh⟩
  · intro j q hq hqh
    rcases hcase j q hq with ⟨-, rfl⟩ | ⟨-, hq⟩
    · exact hp.hash_eq hqh
    · exact h.hash_eq j q hq hqh
  · intro j q hq
    rcases hcase j q hq with ⟨-, rfl⟩ | ⟨-, hq⟩
    · exact hp.ok
    · exact h.ok j q hq
  · intro j k q r hq hr hqh htype hunits
    rcases hcase j q hq with ⟨rfl, rfl⟩ | ⟨-, hq⟩
    · rcases hcase k r hr with ⟨rfl, -⟩ | ⟨-, hr⟩
      · rfl
      · exact absurd hunits (hp.fresh hqh k r hr htype)
    · rcases hcase k r hr with ⟨rfl, rfl⟩ | ⟨-, hr⟩
      · exact absurd hunits.symm (hp.fresh hh j q hq htype.symm)
      · exact h.unique j k q r hq hr hqh htype hunits
  · intro j q n hq htype hn
    rcases hcase j q hq with ⟨-, rfl⟩ | ⟨-, hq⟩
    · exact hp.numbers n htype hn
    · exact h.numbers j q n hq htype hn

theorem use_spec (h : rt.Inv) (h0 : rt.atomFreeIndex ≠ 0) {p : AtomStruct} (hp : rt.Fits p) :
    (rt.use p).Inv ∧ rt.Keeps (rt.use p) ∧
      ∀ i, (rt.use p).atom? i = if rt.atomFreeIndex = i then some p else rt.atom? i := by
  obtain ⟨hnone, hatom, hfree⟩ := fill_spec h h0 p
  have hsize : (rt.fill p).atomArray.length ≤ atomMax := by
    unfold fill
    rw [List.length_set]
    exact h.size
  unfold use
  split
  next hsymbol =>
    have hsame : rt.SameAtoms (rt.fill p) := by
      constructor
      · intro i q hq
        rw [hatom]
        split
        next hi =>
          subst hi
          rw [hnone] at hq
          cases hq
        next => exact ⟨q, hq, rfl, rfl, rfl⟩
      · intro i q hq hh
        rw [hatom] at hq
        split at hq
        next =>
          obtain rfl := Option.some.inj hq
          rw [hsymbol] at hh
          cases hh
        next => exact ⟨q, hq, rfl, rfl, rfl⟩
    refine ⟨hsame.inv h h.holds ?_ hfree hsize, hsame.keeps, hatom⟩
    intro i q hq
    rw [hatom] at hq
    split at hq
    next =>
      obtain rfl := Option.some.inj hq
      exact hp.ok
    next => exact h.ok i q hq
  next hsymbol =>
    have hh : p.atomType.hashed = true := hp.ok.1.resolve_right hsymbol
    have hinv : ((rt.fill p).withTable
        (rt.table.insert (p.hash % rt.atomHash.length) rt.atomFreeIndex)).Inv :=
      inv_of_inserted h h0 hp hh hnone hatom rfl hfree hsize
    dsimp only
    split
    next =>
      have hpos : 0 < ((rt.fill p).withTable
          (rt.table.insert (p.hash % rt.atomHash.length) rt.atomFreeIndex)).atomHash.length * 2 :=
        Nat.mul_pos hinv.holds.pos (by decide)
      exact ⟨(resizeAtomHash_spec hinv hpos).1, keeps_of_filled hnone hatom, hatom⟩
    next => exact ⟨hinv, keeps_of_filled hnone hatom, hatom⟩

/-! ## Finding and making atoms -/

/-- The references to an atom. -/
def refs (rt : Runtime) (i : Nat) : Nat := ((rt.atom? i).map AtomStruct.refCount).getD 0

theorem Inv.refs_pos_iff (h : rt.Inv) (i : Nat) : 0 < rt.refs i ↔ ∃ p, rt.atom? i = some p := by
  unfold refs
  cases hp : rt.atom? i with
  | none => simp
  | some p =>
    constructor
    · exact fun _ => ⟨p, rfl⟩
    · exact fun _ => (h.ok i p hp).2

theorem lookup_spec (h : rt.Inv) (k : Nat) (test : AtomStruct → Bool) :
    (rt.lookup k test = 0 ∧ ∀ i p, rt.atom? i = some p → p.atomType.hashed = true → p.hash = k →
        test p = false) ∨
      rt.lookup k test ≠ 0 ∧ ∃ p, rt.atom? (rt.lookup k test) = some p ∧ test p = true := by
  have hsearch := h.holds.search (fun i => (rt.atom? i).any test) k fun i hi => hi.lt
  rcases hsearch with ⟨hzero, hnone⟩ | ⟨⟨p, hp, hh⟩, htest⟩
  · refine Or.inl ⟨hzero, ?_⟩
    intro i p hp hh hk
    have hfalse := hnone i ⟨p, hp, hh⟩ (by rw [hashOf_eq hp, hk])
    rw [hp] at hfalse
    exact hfalse
  · refine Or.inr ⟨h.holds.ne_zero ⟨p, hp, hh⟩, p, hp, ?_⟩
    have htrue : (rt.atom? (rt.lookup k test)).any test = true := htest
    rw [show rt.atom? (rt.lookup k test) = some p from hp] at htrue
    exact htrue

variable {predefined : Nat}

/-- One more reference to `v`. -/
def Gains (predefined : Nat) (rt rt' : Runtime) (v : Nat) : Prop :=
  ∀ i, isConst predefined i = false → rt'.refs i = rt.refs i + if i = v then 1 else 0

theorem dupAtom_spec (h : rt.Inv) {v : Nat} {p : AtomStruct} (hv : rt.atom? v = some p) :
    (rt.dupAtom predefined v).Inv ∧ rt.Keeps (rt.dupAtom predefined v) ∧
      Gains predefined rt (rt.dupAtom predefined v) v := by
  unfold dupAtom
  split
  next hconst =>
    refine ⟨h, Keeps.refl rt, ?_⟩
    intro i hi
    rw [if_neg, Nat.add_zero]
    rintro rfl
    rw [hconst] at hi
    cases hi
  next =>
    obtain ⟨hinv, hkeeps, hatom⟩ := setRefCount_spec h v (· + 1) fun p _ => Nat.succ_pos _
    refine ⟨hinv, hkeeps, ?_⟩
    intro i _
    unfold refs
    rw [hatom]
    split
    next hi =>
      subst hi
      rw [hv, if_pos rfl]
      rfl
    next hi => rw [if_neg (Ne.symm hi), Nat.add_zero]

/-- A new atom, if there is one, has a number that was free. -/
theorem addAtom_spec (h : rt.Inv) {p : AtomStruct} (hp : rt.Fits p) :
    (rt.addAtom p).1.Inv ∧ rt.Keeps (rt.addAtom p).1 ∧
      ((rt.addAtom p).2 ≠ 0 → rt.atom? (rt.addAtom p).2 = none ∧
        (rt.addAtom p).1.atom? (rt.addAtom p).2 = some p) ∧
      ∀ i, i ≠ 0 → i ≠ (rt.addAtom p).2 → (rt.addAtom p).1.atom? i = rt.atom? i := by
  unfold addAtom
  split
  next => exact ⟨h, Keeps.refl rt, fun h0 => absurd rfl h0, fun _ _ _ => rfl⟩
  next rt' hgrow =>
    obtain ⟨hinv, hsame, h0, hold⟩ := grow_spec h hgrow
    have hp' : rt'.Fits p := by
      refine ⟨hp.ok, hp.hash_eq, ?_, hp.numbers⟩
      intro hh i q hq htype
      obtain ⟨q', hq', hs, -, ht⟩ := hsame.back i q hq (htype ▸ hh)
      rw [hs]
      exact hp.fresh hh i q' hq' (ht ▸ htype)
    obtain ⟨hnone, -, -⟩ := fill_spec hinv h0 p
    obtain ⟨hinv', hkeeps, hatom⟩ := use_spec hinv h0 hp'
    refine ⟨hinv', hsame.keeps.trans hkeeps, ?_, ?_⟩
    · intro _
      dsimp only
      rw [← hold _ h0, hatom, if_pos rfl]
      exact ⟨hnone, rfl⟩
    · intro i hi0 hne
      dsimp only at hne ⊢
      rw [hatom, if_neg (Ne.symm hne)]
      exact hold i hi0

theorem ne_zero_of_not_const {i : Nat} (h : isConst predefined i = false) : i ≠ 0 := by
  rintro rfl
  unfold isConst at h
  simp at h

theorem addAtom_gains (h : rt.Inv) {p : AtomStruct} (hp : rt.Fits p) (hone : p.refCount = 1) :
    Gains predefined rt (rt.addAtom p).1 (rt.addAtom p).2 := by
  obtain ⟨-, -, hnew, hold⟩ := addAtom_spec h hp
  intro i hi
  have h0 := ne_zero_of_not_const hi
  unfold refs
  by_cases hiv : i = (rt.addAtom p).2
  · subst hiv
    obtain ⟨hnone, hsome⟩ := hnew h0
    rw [hnone, hsome, if_pos rfl]
    exact hone
  · rw [hold i h0 hiv, if_neg hiv, Nat.add_zero]

/-- The type that an atom gets. -/
def storedType (type : AtomType) : AtomType := if type.hashed then type else .symbol

theorem newAtom_spec (h : rt.Inv) {str : JSString} {type : AtomType}
    (hnumbers : ∀ n, type = .string → isNumString str.units = some n → atomTagInt ≤ n) :
    (rt.newAtom predefined str type).1.Inv ∧ rt.Keeps (rt.newAtom predefined str type).1 ∧
      Gains predefined rt (rt.newAtom predefined str type).1 (rt.newAtom predefined str type).2 ∧
      ((rt.newAtom predefined str type).2 ≠ 0 →
        ∃ p, (rt.newAtom predefined str type).1.atom? (rt.newAtom predefined str type).2 = some p ∧
          p.atomType = storedType type ∧ p.string.units = str.units) := by
  unfold newAtom storedType
  split
  next hh =>
    dsimp only
    have hlookup := lookup_spec h (hashString str.units type.code) fun p =>
      decide (p.hash = hashString str.units type.code ∧ p.atomType = type ∧ p.string.units = str.units)
    split
    next hfound =>
      obtain ⟨-, p, hp, htest⟩ := hlookup.resolve_left fun hmiss => hfound hmiss.1
      obtain ⟨-, htype, hunits⟩ := of_decide_eq_true htest
      obtain ⟨hinv, hkeeps, hgains⟩ := dupAtom_spec h hp
      refine ⟨hinv, hkeeps, hgains, ?_⟩
      intro _
      obtain ⟨p', hp', hs', ht'⟩ := hkeeps _ p hp
      exact ⟨p', hp', ht'.trans htype, (congrArg JSString.units hs').trans hunits⟩
    next hmiss =>
      have hfits : rt.Fits ⟨1, str, hashString str.units type.code, type⟩ := by
        refine ⟨⟨Or.inl hh, Nat.one_pos⟩, fun _ => rfl, ?_, hnumbers⟩
        intro _ i q hq htype hunits
        dsimp only at htype hunits
        have hhash := h.hash_eq i q hq (htype ▸ hh)
        rw [htype, hunits] at hhash
        have hnone := (hlookup.resolve_right fun hfound => hmiss hfound.1).2
        have hfalse := hnone i q hq (htype ▸ hh) hhash
        rw [decide_eq_false_iff_not] at hfalse
        exact hfalse ⟨hhash, htype, hunits⟩
      obtain ⟨hinv, hkeeps, hnew, -⟩ := addAtom_spec h hfits
      refine ⟨hinv, hkeeps, addAtom_gains h hfits rfl, ?_⟩
      intro h0
      exact ⟨_, (hnew h0).2, rfl, rfl⟩
  next hh =>
    have hfits : rt.Fits ⟨1, str, if type = .privateSymbol then 1 else 0, .symbol⟩ := by
      refine ⟨⟨Or.inr rfl, Nat.one_pos⟩, ?_, ?_, ?_⟩
      · exact fun hsymbol => Bool.noConfusion hsymbol
      · exact fun hsymbol => Bool.noConfusion hsymbol
      · exact fun n hsymbol => AtomType.noConfusion hsymbol
    obtain ⟨hinv, hkeeps, hnew, -⟩ := addAtom_spec h hfits
    refine ⟨hinv, hkeeps, addAtom_gains h hfits rfl, ?_⟩
    intro h0
    exact ⟨_, (hnew h0).2, rfl, rfl⟩

/-- An 8 bit atom whose characters are these bytes. -/
def HasBytes (rt : Runtime) (str : List UInt8) : Prop :=
  ∃ i p, rt.atom? i = some p ∧ p.atomType = .string ∧ p.string.isWideChar = false ∧
    p.string.units = str.map UInt8.toUInt16

theorem findAtom_spec (h : rt.Inv) (str : List UInt8) :
    ((rt.findAtom predefined str).2 = 0 ∧ (rt.findAtom predefined str).1 = rt ∧ ¬ rt.HasBytes str) ∨
      ((rt.findAtom predefined str).2 ≠ 0 ∧ rt.HasBytes str ∧
        (rt.findAtom predefined str).1.Inv ∧ rt.Keeps (rt.findAtom predefined str).1 ∧
        Gains predefined rt (rt.findAtom predefined str).1 (rt.findAtom predefined str).2 ∧
        ∃ p, (rt.findAtom predefined str).1.atom? (rt.findAtom predefined str).2 = some p ∧
          p.atomType = .string ∧ p.string.units = str.map UInt8.toUInt16) := by
  unfold findAtom
  dsimp only
  have hlookup := lookup_spec h (hashString (str.map UInt8.toUInt16) AtomType.string.code) fun p =>
    decide (p.hash = hashString (str.map UInt8.toUInt16) AtomType.string.code ∧
      p.atomType = .string ∧ p.string.isWideChar = false ∧ p.string.units = str.map UInt8.toUInt16)
  rcases hlookup with ⟨hzero, hnone⟩ | ⟨hfound, p, hp, htest⟩
  · refine Or.inl ⟨hzero, if_neg (not_not.2 hzero), ?_⟩
    rintro ⟨i, p, hp, htype, hwide, hunits⟩
    have hh : p.atomType.hashed = true := by
      rw [htype]
      rfl
    have hhash := h.hash_eq i p hp hh
    rw [htype, hunits] at hhash
    have hfalse := hnone i p hp hh hhash
    rw [decide_eq_false_iff_not] at hfalse
    exact hfalse ⟨hhash, htype, hwide, hunits⟩
  · obtain ⟨-, htype, hwide, hunits⟩ := of_decide_eq_true htest
    obtain ⟨hinv, hkeeps, hgains⟩ : (rt.dupAtom predefined _).Inv ∧ _ := dupAtom_spec h hp
    refine Or.inr ⟨hfound, ⟨_, p, hp, htype, hwide, hunits⟩, ?_⟩
    rw [if_pos hfound]
    refine ⟨hinv, hkeeps, hgains, ?_⟩
    obtain ⟨p', hp', hs', ht'⟩ := hkeeps _ p hp
    exact ⟨p', hp', ht'.trans htype, (congrArg JSString.units hs').trans hunits⟩

/-! ## Freeing atoms -/

theorem freeAtomStruct_spec (h : rt.Inv) {v : Nat} (h0 : v ≠ 0) {p : AtomStruct}
    (hp : rt.atom? v = some p) : (rt.freeAtomStruct v p).Inv ∧
    ∀ i, (rt.freeAtomStruct v p).atom? i = if v = i then none else rt.atom? i := by
  have harray : (rt.freeAtomStruct v p).atomArray = rt.atomArray.set v (.free rt.atomFreeIndex) := by
    unfold freeAtomStruct
    dsimp only
    split
    next => rfl
    next => rfl
  have hindex : (rt.freeAtomStruct v p).atomFreeIndex = v := rfl
  have hatom : ∀ i, (rt.freeAtomStruct v p).atom? i = if v = i then none else rt.atom? i :=
    atom?_set (s := .free rt.atomFreeIndex) (lt_of_atom? hp) harray
  have hback : ∀ i q, (rt.freeAtomStruct v p).atom? i = some q → i ≠ v ∧ rt.atom? i = some q := by
    intro i q hq
    rw [hatom] at hq
    split at hq
    next => cases hq
    next hi => exact ⟨Ne.symm hi, hq⟩
  refine ⟨⟨?_, ?_, ?_, ?_, ?_, ?_, ?_⟩, hatom⟩
  · -- the chains are those of the other atoms
    have hrest : (rt.freeAtomStruct v p).table.Holds rt.hashOf fun i => rt.Hashed i ∧ i ≠ v := by
      unfold freeAtomStruct
      dsimp only
      split
      next hsymbol =>
        apply h.holds.congr _ (fun _ _ => rfl)
        intro i
        constructor
        · exact fun hi => hi.1
        · rintro ⟨q, hq, hh⟩
          refine ⟨⟨q, hq, hh⟩, ?_⟩
          rintro rfl
          rw [hp] at hq
          obtain rfl := Option.some.inj hq
          rw [hsymbol] at hh
          cases hh
      next hsymbol =>
        have hh : rt.Hashed v := ⟨p, hp, (h.ok v p hp).1.resolve_right hsymbol⟩
        have hremove := h.holds.remove hh fun i hi => hi.lt
        rw [hashOf_eq hp] at hremove
        exact hremove
    apply hrest.congr
    · intro i
      constructor
      · rintro ⟨q, hq, hh⟩
        obtain ⟨hne, hq⟩ := hback i q hq
        exact ⟨⟨q, hq, hh⟩, hne⟩
      · rintro ⟨⟨q, hq, hh⟩, hne⟩
        refine ⟨q, ?_, hh⟩
        rw [hatom, if_neg hne.symm, hq]
    · rintro i ⟨⟨q, hq, -⟩, hne⟩
      have hq' : (rt.freeAtomStruct v p).atom? i = some q := by
        rw [hatom, if_neg hne.symm, hq]
      rw [hashOf_eq hq', hashOf_eq hq]
  · intro i q hq
    exact h.hash_eq i q (hback i q hq).2
  · intro i q hq
    exact h.ok i q (hback i q hq).2
  · intro i j q r hq hr
    exact h.unique i j q r (hback i q hq).2 (hback j r hr).2
  · obtain ⟨l, hchain, hnodup, hfree⟩ := h.free
    have hv : v ∉ l := fun hv => free_of_atom? hp (hfree v hv)
    obtain ⟨hchain', hfree'⟩ := free_set hchain hfree hv harray
    have hslot : (rt.freeAtomStruct v p).atomArray[v]? = some (.free rt.atomFreeIndex) := by
      rw [harray, List.getElem?_set_self (lt_of_atom? hp)]
    rw [hindex]
    refine ⟨v :: l, ⟨rfl, h0, ?_⟩, List.nodup_cons.2 ⟨hv, hnodup⟩, ?_⟩
    · have hnext : (rt.freeAtomStruct v p).freeNext v = rt.atomFreeIndex := by
        unfold freeNext
        rw [hslot]
        rfl
      rw [hnext]
      exact hchain'
    · intro i hi
      rcases List.mem_cons.1 hi with rfl | hi
      · exact ⟨_, hslot⟩
      · exact hfree' i hi
  · intro i q n hq
    exact h.numbers i q n (hback i q hq).2
  · rw [harray, List.length_set]
    exact h.size

/-- What is left of an atom that loses a reference. -/
def released (p : AtomStruct) : Option AtomStruct :=
  if p.refCount - 1 > 0 then some { p with refCount := p.refCount - 1 } else none

theorem freeAtom_atom? (h : rt.Inv) (v : Nat) : (rt.freeAtom predefined v).Inv ∧
    ∀ i, (rt.freeAtom predefined v).atom? i =
      if isConst predefined v = false ∧ v = i then (rt.atom? i).bind released else rt.atom? i := by
  unfold freeAtom
  split
  next hconst =>
    refine ⟨h, fun i => ?_⟩
    rw [if_neg]
    rintro ⟨hfalse, -⟩
    rw [hconst] at hfalse
    cases hfalse
  next hconst =>
    have hfalse : isConst predefined v = false := Bool.eq_false_iff.2 hconst
    split
    next p hp =>
      split
      next hmore =>
        have hpos : ∀ q, rt.atom? v = some q → 0 < q.refCount - 1 := by
          intro q hq
          rw [hp] at hq
          obtain rfl := Option.some.inj hq
          exact hmore
        obtain ⟨hinv, -, hatom⟩ := setRefCount_spec h v (· - 1) hpos
        refine ⟨hinv, fun i => ?_⟩
        rw [hatom]
        by_cases hi : v = i
        · subst hi
          rw [if_pos rfl, if_pos ⟨hfalse, rfl⟩, hp]
          unfold released
          simp only [Option.map_some, Option.bind_some]
          rw [if_pos hmore]
        · rw [if_neg hi, if_neg fun hand => hi hand.2]
      next hlast =>
        obtain ⟨hinv, hatom⟩ := freeAtomStruct_spec h (ne_zero_of_not_const hfalse) hp
        refine ⟨hinv, fun i => ?_⟩
        rw [hatom]
        by_cases hi : v = i
        · subst hi
          rw [if_pos rfl, if_pos ⟨hfalse, rfl⟩, hp]
          unfold released
          simp only [Option.bind_some]
          rw [if_neg hlast]
        · rw [if_neg hi, if_neg fun hand => hi hand.2]
    next hnone =>
      refine ⟨h, fun i => ?_⟩
      split
      next hi =>
        rw [← hi.2, hnone]
        rfl
      next => rfl

/-- An atom loses a reference, and goes with the last. -/
theorem freeAtom_spec (h : rt.Inv) (v : Nat) : (rt.freeAtom predefined v).Inv ∧
    (∀ i, isConst predefined i = false →
      (rt.freeAtom predefined v).refs i = rt.refs i - if i = v then 1 else 0) ∧
    ∀ i p, rt.atom? i = some p → isConst predefined i = true ∨ i ≠ v ∨ 1 < p.refCount →
      ∃ p', (rt.freeAtom predefined v).atom? i = some p' ∧ p'.string = p.string ∧
        p'.atomType = p.atomType := by
  obtain ⟨hinv, hatom⟩ : _ ∧ ∀ i, (rt.freeAtom predefined v).atom? i = _ := freeAtom_atom? h v
  refine ⟨hinv, ?_, ?_⟩
  · intro i hi
    unfold refs
    rw [hatom]
    by_cases hiv : v = i
    · subst hiv
      rw [if_pos ⟨hi, rfl⟩, if_pos rfl]
      cases rt.atom? v with
      | none => rfl
      | some p =>
        show ((released p).map AtomStruct.refCount).getD 0 = p.refCount - 1
        unfold released
        split
        next => rfl
        next hlast => exact (Nat.eq_zero_of_not_pos hlast).symm
    · rw [if_neg fun hand => hiv hand.2, if_neg (Ne.symm hiv), Nat.sub_zero]
  · intro i p hp hstays
    rw [hatom]
    split
    next hi =>
      obtain ⟨hfalse, rfl⟩ := hi
      have hmore : p.refCount - 1 > 0 := by
        rcases hstays with hconst | hne | hmore
        · rw [hfalse] at hconst
          cases hconst
        · exact absurd rfl hne
        · omega
      refine ⟨{ p with refCount := p.refCount - 1 }, ?_, rfl, rfl⟩
      rw [hp]
      exact if_pos hmore
    next => exact ⟨p, hp, rfl, rfl⟩

end Runtime

end HybridStack.QuickJs.Atoms
