import HybridStack.Lib.Acyclic
import HybridStack.QuickJs.Exceptions
import Mathlib.Data.List.Chain

/-!
# The loop of `_getException` (quickjs-jni.cpp:604-635)

`Exceptions` takes the reading of an Error as it comes; this is the reading. The loop follows the
property `stack` from value to value until one is undefined, with no bound and no record of where it
has been.

| here | there |
| --- | --- |
| `Heap.getProperty` | `JS_GetPropertyStr(ctx, v, "stack")`: `JS_GetPropertyInternal`, quickjs.c:7075-7210 |
| `Heap.toCString` | `JS_ToCString`; null, as the pointer, when the conversion throws |
| `Heap.collect` | the `while` loop, one unit of fuel for each iteration |
| `Heap.conversions`, `Heap.engine` | lines 609-622, what `getException` of `Exceptions` reads of an Error |

The properties are data properties, own or inherited, and converting a value does not change one: no
getter, proxy or `toString` of the script is run for its effects.

- **`getException_returns_iff`**: the call returns if and only if no value on the chain is met twice
  and none is null. Of null the property cannot be read, what comes of it is the exception marker,
  and of that the property is the marker again.
- `own_stack`: an Error that is its own stack.
-/

namespace HybridStack.QuickJs.StackChain

open Acyclic (NoCycle Ends)
open Exceptions (Engine Messages)
open Relation (ReflTransGen TransGen)

/-! ## Values and the loop -/

inductive PrimitiveClass | string | number | boolean | bigInt | symbol
  deriving DecidableEq, Repr

inductive Value
  | undefined
  | null
  | primitive (cls : PrimitiveClass) (text : String)
  | object (id : Nat)
  deriving DecidableEq, Repr

structure Heap where
  /-- What `stack` of each object reads as. -/
  stackValues : List Value
  /-- What `stack` reads as on the prototype of each class. -/
  prototypes : PrimitiveClass → Value
  isError : Nat → Bool
  /-- `toString` of an object: its text, or what it throws. -/
  objectText : Nat → Except Value String
  /-- What the conversion of a symbol throws. -/
  typeError : Value

namespace Heap

variable (h : Heap)

/-- The value of `stack`; nothing can be read of null or undefined. -/
def stackOf : Value → Option Value
  | .undefined | .null => none
  | .primitive cls _ => some (h.prototypes cls)
  | .object id => some (h.stackValues.getD id .undefined)

/-- With `none` for `JS_EXCEPTION`. -/
def getProperty : Option Value → Option Value
  | none => none
  | some v => h.stackOf v

/-- The text, or what the conversion leaves pending. -/
def toCString : Option Value → Except (Option Value) String
  | none => .error none
  | some .undefined => .ok "undefined"
  | some .null => .ok "null"
  | some (.primitive .symbol _) => .error (some h.typeError)
  | some (.primitive _ text) => .ok text
  | some (.object id) =>
    match h.objectText id with
    | .ok text => .ok text
    | .error thrown => .error (some thrown)

/-- What each iteration converts; `none` when the fuel does not reach the end. -/
def collect : Nat → Option Value → Option (List (Except (Option Value) String))
  | _, some .undefined => some []
  | 0, _ => none
  | fuel + 1, v => (collect fuel (h.getProperty v)).map (h.toCString v :: ·)

/-- What was thrown last. -/
def pending (conversions : List (Except (Option Value) String)) : Option Value :=
  (conversions.filterMap fun c => match c with | .error thrown => thrown | .ok _ => none).getLast?

def text : Except (Option Value) String → Option String
  | .ok s => some s
  | .error _ => none

/-- What the call of `toString` throws, or what the conversion of its result comes to. -/
abbrev Called := Except Value (Except (Option Value) String)

/-- The text of `titleValue`; the marker, when the call throws, has none. -/
def titleText : Called → Option String
  | .ok title => text title
  | .error _ => none

/-- What lines 616-622 do, one by one: the call comes before the conversion of `name`, its result is
converted after that. -/
def conversions (name : Except (Option Value) String) (title : Called)
    (stack : List (Except (Option Value) String)) : List (Except (Option Value) String) :=
  match title with
  | .ok title => name :: title :: stack
  | .error thrown => .error (some thrown) :: name :: .error none :: stack

/-- `name`, `title` and the stacks of an Error, which the loop reads with `fuel` iterations. -/
def read (name : Nat → Except (Option Value) String) (title : Nat → Called) (fuel : Nat) :
    Value → Option (Messages × Option Value)
  | .object id =>
    (h.collect fuel (h.stackOf (.object id))).map fun stack =>
      (⟨text (name id), titleText (title id), stack.map text⟩,
        pending (conversions (name id) (title id) stack))
  | _ => none

def engine (name : Nat → Except (Option Value) String) (title : Nat → Called) (fuel : Nat) :
    Engine Value where
  isError
    | .object id => h.isError id
    | _ => false
  read := h.read name title fuel

end Heap

variable {h : Heap}

/-! ## The chain -/

/-- `w` is the stack of `v`. -/
def Next (h : Heap) (v w : Value) : Prop := h.stackOf v = some w

/-- No value is met twice, and none is null. -/
def Sound (h : Heap) (v : Value) : Prop :=
  NoCycle (Next h) v ∧ ∀ w, ReflTransGen (Next h) v w → w ≠ .null

theorem not_next_undefined (w : Value) : ¬ Next h .undefined w := nofun

theorem stackOf_eq_none_iff {v : Value} : h.stackOf v = none ↔ v = .undefined ∨ v = .null := by
  cases v <;> simp [Heap.stackOf]

/-- The property of the marker is the marker. -/
theorem collect_exception (fuel : Nat) : h.collect fuel none = none := by
  induction fuel with
  | zero => rfl
  | succ fuel ih => simp [Heap.collect, Heap.getProperty, ih]

theorem collect_null (fuel : Nat) : h.collect fuel (some .null) = none := by
  cases fuel with
  | zero => rfl
  | succ fuel => simp [Heap.collect, Heap.getProperty, Heap.stackOf, collect_exception]

theorem collect_undefined (fuel : Nat) : h.collect fuel (some .undefined) = some [] := by
  cases fuel <;> rfl

/-- One iteration. -/
theorem collect_succ {v w : Value} (hnext : Next h v w) (fuel : Nat) :
    h.collect (fuel + 1) (some v) =
      (h.collect fuel (some w)).map (h.toCString (some v) :: ·) := by
  have hv : v ≠ .undefined := by
    rintro rfl
    exact not_next_undefined w hnext
  rw [Heap.collect, Heap.getProperty, hnext]
  exact fun heq => hv (Option.some.inj heq)

/-- The loop ends at once, or goes on to the stack of the value. -/
theorem collect_cases {fuel : Nat} {v : Value} {l : List (Except (Option Value) String)}
    (hl : h.collect fuel (some v) = some l) :
    (v = .undefined ∧ l = []) ∨ ∃ fuel' w l', fuel = fuel' + 1 ∧ Next h v w ∧
      h.collect fuel' (some w) = some l' ∧ l = h.toCString (some v) :: l' := by
  cases hv : h.stackOf v with
  | none =>
    rcases stackOf_eq_none_iff.1 hv with rfl | rfl
    · rw [collect_undefined] at hl
      exact .inl ⟨rfl, (Option.some.inj hl).symm⟩
    · rw [collect_null] at hl
      contradiction
  | some w =>
    right
    cases fuel with
    | zero => cases v <;> simp_all [Heap.collect, Heap.stackOf]
    | succ fuel =>
      rw [collect_succ hv, Option.map_eq_some_iff] at hl
      obtain ⟨l', hl', rfl⟩ := hl
      exact ⟨fuel, w, l', rfl, hv, hl', rfl⟩

theorem collect_mono {fuel fuel' : Nat} (hle : fuel ≤ fuel') {v : Value}
    {l : List (Except (Option Value) String)} (hl : h.collect fuel (some v) = some l) :
    h.collect fuel' (some v) = some l := by
  induction fuel generalizing fuel' v l with
  | zero =>
    rcases collect_cases hl with ⟨rfl, rfl⟩ | ⟨_, _, _, hfuel, _⟩
    · exact collect_undefined fuel'
    · omega
  | succ fuel ih =>
    rcases collect_cases hl with ⟨rfl, rfl⟩ | ⟨_, w, l', hfuel, hnext, hl', rfl⟩
    · exact collect_undefined fuel'
    · obtain rfl := Nat.succ.inj hfuel
      obtain ⟨k, rfl⟩ := Nat.exists_eq_add_of_le' (Nat.one_le_of_lt hle)
      rw [collect_succ hnext, ih (by omega) hl', Option.map_some]

/-- Induction along a loop that gets to its end. -/
theorem collect_induct {P : Value → List (Except (Option Value) String) → Prop}
    (hend : P .undefined [])
    (hstep : ∀ v w l, Next h v w → P w l → P v (h.toCString (some v) :: l)) {fuel : Nat} {v : Value}
    {l : List (Except (Option Value) String)} (hl : h.collect fuel (some v) = some l) : P v l := by
  induction fuel generalizing v l with
  | zero =>
    rcases collect_cases hl with ⟨rfl, rfl⟩ | ⟨_, _, _, hfuel, _⟩
    · exact hend
    · omega
  | succ fuel ih =>
    rcases collect_cases hl with ⟨rfl, rfl⟩ | ⟨fuel', w, l', hfuel, hnext, hl', rfl⟩
    · exact hend
    · obtain rfl := Nat.succ.inj hfuel
      exact hstep v w l' hnext (ih hl')

/-- What the loop gets to the end of ends, and without a null. -/
theorem ends_of_collect {fuel : Nat} {v : Value} {l : List (Except (Option Value) String)}
    (hl : h.collect fuel (some v) = some l) :
    Ends (Next h) v ∧ ∀ w, ReflTransGen (Next h) v w → w ≠ .null := by
  refine collect_induct (P := fun v _ => Ends (Next h) v ∧
    ∀ w, ReflTransGen (Next h) v w → w ≠ .null) ?_ ?_ hl
  · refine ⟨Ends.intro fun w hw => absurd hw (not_next_undefined w), fun w hw => ?_⟩
    rcases ReflTransGen.cases_head hw with rfl | ⟨x, hx, -⟩
    · exact nofun
    · exact absurd hx (not_next_undefined x)
  · rintro v w _ hnext ⟨hends, hnull⟩
    -- a value has one stack
    have huniq : ∀ x, Next h v x → x = w := fun x hx => Option.some.inj (hx.symm.trans hnext)
    refine ⟨Ends.intro fun x hx => huniq x hx ▸ hends, fun x hx => ?_⟩
    rcases ReflTransGen.cases_head hx with rfl | ⟨y, hy, hyx⟩
    · rintro rfl
      exact Option.some_ne_none w hnext.symm
    · exact hnull x (huniq y hy ▸ hyx)

/-- Only these are met after the first value. -/
def Heap.reach (h : Heap) : List Value :=
  .undefined :: h.stackValues ++
    [PrimitiveClass.string, .number, .boolean, .bigInt, .symbol].map h.prototypes

theorem mem_reach {v w : Value} (hnext : Next h v w) : w ∈ h.reach := by
  cases v with
  | undefined => exact absurd hnext (not_next_undefined w)
  | null => exact absurd hnext nofun
  | primitive cls text =>
    have hw : h.prototypes cls = w := Option.some.inj hnext
    refine List.mem_append_right _ (List.mem_map.2 ⟨cls, ?_, hw⟩)
    cases cls <;> decide
  | object id =>
    have hw : h.stackValues.getD id .undefined = w := Option.some.inj hnext
    refine List.mem_append_left _ ?_
    rw [← hw, List.getD_eq_getElem?_getD]
    cases hid : h.stackValues[id]? with
    | none => exact List.mem_cons_self
    | some x => exact List.mem_cons_of_mem _ (List.mem_of_getElem? hid)

/-- A chain without a cycle ends, since the heap is finite. -/
theorem ends_of_noCycle {v : Value} (hcycle : NoCycle (Next h) v) :
    Ends (fun a b => Next h a b ∧ a ∈ (v :: h.reach).toFinset) v :=
  (hcycle.mono fun _ _ hab => hab.1).ends fun _ _ hab => hab.2

/-- The loop gets to the end of a chain that ends without a null. -/
theorem collect_of_ends {v₀ v : Value}
    (hends : Ends (fun a b => Next h a b ∧ a ∈ (v₀ :: h.reach).toFinset) v)
    (hmem : v ∈ (v₀ :: h.reach).toFinset) (hnull : ∀ w, ReflTransGen (Next h) v w → w ≠ .null) :
    ∃ fuel l, h.collect fuel (some v) = some l := by
  induction hends with
  | intro v _ ih =>
    cases hv : h.stackOf v with
    | none =>
      rcases stackOf_eq_none_iff.1 hv with rfl | rfl
      · exact ⟨0, [], rfl⟩
      · exact absurd rfl (hnull _ .refl)
    | some w =>
      obtain ⟨fuel, l, hl⟩ := ih w ⟨hv, hmem⟩
        (by simp [mem_reach hv]) fun x hx => hnull x (ReflTransGen.head hv hx)
      exact ⟨fuel + 1, _, by rw [collect_succ hv, hl, Option.map_some]⟩

/-- **The loop ends** if and only if the chain is sound. -/
theorem collect_iff (v : Value) : (∃ fuel l, h.collect fuel (some v) = some l) ↔ Sound h v := by
  constructor
  · rintro ⟨fuel, l, hl⟩
    obtain ⟨hends, hnull⟩ := ends_of_collect hl
    exact ⟨hends.noCycle, hnull⟩
  · rintro ⟨hcycle, hnull⟩
    exact collect_of_ends (ends_of_noCycle hcycle) (by simp) hnull

/-- The messages are the values of the chain, each converted, up to the one that is undefined. -/
theorem collect_chain {fuel : Nat} {v : Value} {l : List (Except (Option Value) String)}
    (hl : h.collect fuel (some v) = some l) :
    ∃ vs, l = vs.map (fun w => h.toCString (some w)) ∧
      List.IsChain (Next h) (vs ++ [.undefined]) ∧ (vs ++ [.undefined]).head? = some v := by
  refine collect_induct (P := fun v l => ∃ vs, l = vs.map (fun w => h.toCString (some w)) ∧
    List.IsChain (Next h) (vs ++ [.undefined]) ∧ (vs ++ [.undefined]).head? = some v) ?_ ?_ hl
  · exact ⟨[], rfl, .singleton _, rfl⟩
  · rintro v w _ hnext ⟨vs, rfl, hchain, hhead⟩
    refine ⟨v :: vs, rfl, ?_, rfl⟩
    rw [List.cons_append, List.isChain_cons]
    refine ⟨fun x hx => ?_, hchain⟩
    rw [hhead, Option.mem_some_iff] at hx
    exact hx ▸ hnext

/-! ## The call -/

theorem getException_eq {name : Nat → Except (Option Value) String} {title : Nat → Heap.Called}
    {fuel exc : Nat} (herror : h.isError exc = true) :
    Exceptions.getException (h.engine name title fuel) (some (.object exc)) =
      (h.collect fuel (some (h.stackValues.getD exc .undefined))).map fun stack =>
        (some ⟨Heap.text (name exc), Heap.titleText (title exc), stack.map Heap.text⟩,
          Heap.pending (Heap.conversions (name exc) (title exc) stack)) := by
  simp only [Exceptions.getException, Heap.engine, herror, if_true, Heap.read, Heap.stackOf]
  cases h.collect fuel (some (h.stackValues.getD exc .undefined)) <;> rfl

/-- With any fuel from some on, the call returns the messages of a chain that ends in an undefined
stack. -/
def Returns (h : Heap) (name : Nat → Except (Option Value) String) (title : Nat → Heap.Called)
    (exc : Nat) : Prop :=
  ∃ chain left fuel, List.IsChain (Next h) (chain ++ [.undefined]) ∧
    (chain ++ [.undefined]).head? = some (h.stackValues.getD exc .undefined) ∧
    ∀ fuel' ≥ fuel, Exceptions.getException (h.engine name title fuel') (some (.object exc)) =
      some (some ⟨Heap.text (name exc), Heap.titleText (title exc),
        chain.map fun v => Heap.text (h.toCString (some v))⟩, left)

/-- **Fetching an Error returns** if and only if its chain of stacks is sound. -/
theorem getException_returns_iff (h : Heap) (name : Nat → Except (Option Value) String)
    (title : Nat → Heap.Called) (exc : Nat) (herror : h.isError exc = true) :
    Returns h name title exc ↔ Sound h (h.stackValues.getD exc .undefined) := by
  rw [← collect_iff]
  constructor
  · rintro ⟨chain, left, fuel, -, -, hreturn⟩
    have hfuel := hreturn fuel (Nat.le_refl _)
    rw [getException_eq herror, Option.map_eq_some_iff] at hfuel
    obtain ⟨l, hl, -⟩ := hfuel
    exact ⟨fuel, l, hl⟩
  · rintro ⟨fuel, l, hl⟩
    obtain ⟨chain, rfl, hchain, hhead⟩ := collect_chain hl
    refine ⟨chain, Heap.pending (Heap.conversions (name exc) (title exc)
      (chain.map fun v => h.toCString (some v))), fuel, hchain, hhead, fun fuel' hle => ?_⟩
    rw [getException_eq herror, collect_mono hle hl, Option.map_some, List.map_map]
    rfl

/-- An Error with a trace of text, and an Error that is its own stack. -/
def sampleHeap : Heap where
  stackValues := [.primitive .string "at main.js:1", .object 1]
  prototypes _ := .undefined
  isError _ := true
  objectText _ := .ok "Error: no"
  typeError := .object 0

theorem getException_returns_iff_trace :
    Returns sampleHeap (fun _ => .ok "Error") (fun _ => .ok (.ok "Error: no")) 0 ↔
      Sound sampleHeap (sampleHeap.stackValues.getD 0 .undefined) :=
  getException_returns_iff sampleHeap _ _ 0 rfl

example : Exceptions.getException
    (sampleHeap.engine (fun _ => .ok "Error") (fun _ => .ok (.ok "Error: no")) 1) (some (.object 0)) =
      some (some ⟨some "Error", some "Error: no", [some "at main.js:1"]⟩, none) := by decide

/-- **`err.stack = err`.** -/
theorem own_stack : ¬ ∀ (h : Heap) (name : Nat → Except (Option Value) String)
    (title : Nat → Heap.Called) (exc : Nat), h.isError exc = true → Returns h name title exc := by
  intro h
  obtain ⟨chain, left, fuel, -, -, hreturn⟩ :=
    h sampleHeap (fun _ => .ok "Error") (fun _ => .ok (.ok "Error: no")) 1 rfl
  have hself : Next sampleHeap (.object 1) (.object 1) := rfl
  have hforever : ∀ fuel, sampleHeap.collect fuel (some (.object 1)) = none := by
    intro fuel
    induction fuel with
    | zero => rfl
    | succ fuel ih => rw [collect_succ hself, ih, Option.map_none]
  have hfuel := hreturn fuel (Nat.le_refl _)
  have hstack : sampleHeap.stackValues.getD 1 .undefined = .object 1 := rfl
  rw [getException_eq rfl, hstack, hforever, Option.map_none] at hfuel
  exact Option.some_ne_none _ hfuel.symm

end HybridStack.QuickJs.StackChain
