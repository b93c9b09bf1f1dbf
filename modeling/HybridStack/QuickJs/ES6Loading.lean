import HybridStack.QuickJs.ES6Module
import Mathlib.Data.List.Perm.Subperm

/-!
# What `js_resolve_module` loads

By name, loading is a depth-first walk (`loading`): a name that is in the table is left alone, one
without a script that parses fails, and what a module imports comes after the module itself.
The engine's functions do just that on their table of `JSModuleDef`s (`simulates`), and bind each
request to the first module of its name (`imports`). `evalInternal_loads` puts the two together.
-/

namespace HybridStack.QuickJs.ES6Module

open DepthFirst

variable {V : Type}

/-! ## By name -/

section

variable (H : Host V)

/-- The names a module imports from, normalised, unless it has no script that parses. -/
def importsOf (moduleName : String) : Option (List (Option String)) :=
  match (H.getModuleScript moduleName).bind H.parse with
  | none => none
  | some specifiers => some ((reqModuleEntries specifiers).map (normalize moduleName))

def edges (x : Option String) : List (Option String) := (x.bind (importsOf H)).getD []

/-- The state lists the names in the table. -/
def loading : Walk (Option String) Unit (List String) where
  valid _ _ := true
  skip names x :=
    match x with
    | none => some (.error ())
    | some n =>
      if n ∈ names then some (.ok ())
      else if (importsOf H n).isNone then some (.error ()) else none
  enter names x := names ++ x.toList
  children _ x := edges H x
  finish names _ := (.ok (), names)
  abandon names _ := names

/-- `names`, and others after them, each once. -/
def LoadedAfter (names names' : List String) : Prop :=
  ∃ new, names' = names ++ new ∧ new.Nodup ∧ ∀ n ∈ new, n ∉ names

variable {H}

theorem loading_skip_none {names : List String} {x : Option String} :
    (loading H).skip names x = none ↔ ∃ n, x = some n ∧ n ∉ names ∧ (importsOf H n).isSome := by
  cases x with
  | none => simp [loading]
  | some n =>
    by_cases hn : n ∈ names
    · simp [loading, hn]
    · cases h : importsOf H n <;> simp [loading, hn, h]

theorem loading_skip_ok {names : List String} {x : Option String} :
    (loading H).skip names x = some (.ok ()) ↔ ∃ n, x = some n ∧ n ∈ names := by
  cases x with
  | none => simp [loading]
  | some n =>
    by_cases hn : n ∈ names
    · simp [loading, hn]
    · cases h : importsOf H n <;> simp [loading, hn, h]

theorem loading_lawful (names : List String) :
    Lawful (loading H) (LoadedAfter names) (edges H) fun _ => .ok () where
  children_eq _ _ := rfl
  enter := by
    rintro st x ⟨new, rfl, hnd, hnew⟩ hx
    obtain ⟨n, rfl, hn, -⟩ := loading_skip_none.1 hx
    rw [List.mem_append, not_or] at hn
    refine ⟨new ++ [n], by simp [loading], ?_, fun k hk => ?_⟩
    · exact List.nodup_append'.2 ⟨hnd, List.nodup_singleton n, by simpa using hn.2⟩
    · rcases List.mem_append.1 hk with hk | hk
      · exact hnew k hk
      · rw [List.mem_singleton.1 hk]
        exact hn.1
  finish h _ := h
  skip_enter := by
    intro st x _ hx
    obtain ⟨n, rfl, -⟩ := loading_skip_none.1 hx
    exact loading_skip_ok.2 ⟨n, rfl, by simp [loading]⟩
  skip_enter_of_ne := by
    intro st x y _ hx hne
    obtain ⟨n, rfl, -⟩ := loading_skip_none.1 hx
    cases y with
    | none => rfl
    | some k =>
      have hk : k ≠ n := fun h => hne (by rw [h])
      simp [loading, hk]
  verdict_eq _ _ := rfl
  skip_finish _ _ _ _ := rfl

end

/-! ## The table -/

namespace Context

section

variable (ctx : Context V)

def names : List String := ctx.loadedModules.map fun m => (ctx.defs m).moduleName

/-- An import `name` of the module `base` is bound to the first module of the normalised name. -/
def Binds (base name : String) (m : ModulePtr) : Prop :=
  ∃ n, normalize base name = some n ∧ ctx.findLoadedModule n = some m

/-- `js_resolve_module` is through with the module. -/
def Complete (m : ModulePtr) : Prop :=
  (ctx.defs m).resolved = true ∧
    List.Forall₂ (ctx.Binds (ctx.defs m).moduleName) (ctx.defs m).requests (ctx.defs m).modules

/-- `b` is `a` or imported from it, directly or not. -/
def ImportedFrom (a b : ModulePtr) : Prop :=
  Relation.ReflTransGen (fun a b => a < ctx.next ∧ b ∈ (ctx.defs a).modules) a b

/-- Every module in the table has at least been begun with. -/
def Begun : Prop := ∀ m ∈ ctx.loadedModules, m < ctx.next ∧ (ctx.defs m).resolved = true

variable {ctx}

@[simp] theorem modify_loadedModules (m : ModulePtr) (f : ModuleDef V → ModuleDef V) :
    (ctx.modify m f).loadedModules = ctx.loadedModules := rfl

@[simp] theorem modify_next (m : ModulePtr) (f : ModuleDef V → ModuleDef V) :
    (ctx.modify m f).next = ctx.next := rfl

@[simp] theorem modify_scripts (m : ModulePtr) (f : ModuleDef V → ModuleDef V) :
    (ctx.modify m f).scripts = ctx.scripts := rfl

@[simp] theorem modify_ran (m : ModulePtr) (f : ModuleDef V → ModuleDef V) :
    (ctx.modify m f).ran = ctx.ran := rfl

@[simp] theorem modify_defs_self (m : ModulePtr) (f : ModuleDef V → ModuleDef V) :
    (ctx.modify m f).defs m = f (ctx.defs m) := Function.update_self ..

theorem modify_defs_of_ne {m p : ModulePtr} (f : ModuleDef V → ModuleDef V) (h : p ≠ m) :
    (ctx.modify m f).defs p = ctx.defs p := Function.update_of_ne h ..

@[simp] theorem setModule_loadedModules (m q : ModulePtr) :
    (ctx.setModule m q).loadedModules = ctx.loadedModules := rfl

@[simp] theorem setModule_next (m q : ModulePtr) : (ctx.setModule m q).next = ctx.next := rfl

@[simp] theorem setModule_scripts (m q : ModulePtr) : (ctx.setModule m q).scripts = ctx.scripts := rfl

@[simp] theorem setModule_moduleName (m q p : ModulePtr) :
    ((ctx.setModule m q).defs p).moduleName = (ctx.defs p).moduleName := by
  by_cases hp : p = m
  · subst hp
    rw [setModule, modify_defs_self]
  · rw [setModule, modify_defs_of_ne _ hp]

@[simp] theorem setModule_resolved (m q p : ModulePtr) :
    ((ctx.setModule m q).defs p).resolved = (ctx.defs p).resolved := by
  by_cases hp : p = m
  · subst hp
    rw [setModule, modify_defs_self]
  · rw [setModule, modify_defs_of_ne _ hp]

@[simp] theorem setModule_names (m q : ModulePtr) : (ctx.setModule m q).names = ctx.names := by
  simp [names]

theorem findLoadedModule_eq_none {n : String} : ctx.findLoadedModule n = none ↔ n ∉ ctx.names := by
  simp [findLoadedModule, names]

theorem mem_of_findLoadedModule {n : String} {m : ModulePtr} (h : ctx.findLoadedModule n = some m) :
    m ∈ ctx.loadedModules ∧ (ctx.defs m).moduleName = n :=
  ⟨List.mem_of_find?_eq_some h, by simpa using List.find?_some h⟩

end

/-- `new` have been put into the table, by modules below them too; older ones keep their names. -/
structure Grows (ctx : Context V) (new : List ModulePtr) (ctx' : Context V) : Prop where
  loaded_eq : ctx'.loadedModules = ctx.loadedModules ++ new
  mem_new : ∀ p ∈ new, ctx.next ≤ p ∧ p < ctx'.next
  next_le : ctx.next ≤ ctx'.next
  name_eq : ∀ p < ctx.next, (ctx'.defs p).moduleName = (ctx.defs p).moduleName
  modules_subset : ∀ p < ctx.next, (ctx.defs p).modules ⊆ (ctx'.defs p).modules
  ran_eq : ctx'.ran = ctx.ran

namespace Grows

variable {ctx ctx' ctx'' : Context V} {new new' : List ModulePtr}

theorem trans (h : ctx.Grows new ctx') (h' : ctx'.Grows new' ctx'') :
    ctx.Grows (new ++ new') ctx'' where
  loaded_eq := by rw [h'.loaded_eq, h.loaded_eq, List.append_assoc]
  mem_new p hp := by
    rcases List.mem_append.1 hp with hp | hp
    · exact ⟨(h.mem_new p hp).1, Nat.lt_of_lt_of_le (h.mem_new p hp).2 h'.next_le⟩
    · exact ⟨Nat.le_trans h.next_le (h'.mem_new p hp).1, (h'.mem_new p hp).2⟩
  next_le := Nat.le_trans h.next_le h'.next_le
  name_eq p hp := by rw [h'.name_eq p (Nat.lt_of_lt_of_le hp h.next_le), h.name_eq p hp]
  modules_subset p hp :=
    List.Subset.trans (h.modules_subset p hp)
      (h'.modules_subset p (Nat.lt_of_lt_of_le hp h.next_le))
  ran_eq := h'.ran_eq.trans h.ran_eq

theorem setModule_self (m q : ModulePtr) : ctx.Grows [] (ctx.setModule m q) where
  loaded_eq := (List.append_nil _).symm
  mem_new := by simp
  next_le := Nat.le_refl _
  name_eq p _ := setModule_moduleName m q p
  modules_subset p _ := by
    by_cases hp : p = m
    · subst hp
      rw [Context.setModule, modify_defs_self]
      exact List.subset_append_left _ _
    · rw [Context.setModule, modify_defs_of_ne _ hp]
      exact List.Subset.refl _
  ran_eq := rfl

theorem setModule (h : ctx.Grows new ctx') (m q : ModulePtr) : ctx.Grows new (ctx'.setModule m q) := by
  have h' := h.trans (setModule_self m q)
  rwa [List.append_nil] at h'

theorem names_eq (h : ctx.Grows new ctx') (hlt : ∀ m ∈ ctx.loadedModules, m < ctx.next) :
    ctx'.names = ctx.names ++ new.map fun m => (ctx'.defs m).moduleName := by
  rw [names, h.loaded_eq, List.map_append, names]
  congr 1
  exact List.map_congr_left fun m hm => h.name_eq m (hlt m hm)

/-- The first module of a name stays the first. -/
theorem find_eq (h : ctx.Grows new ctx') (hlt : ∀ m ∈ ctx.loadedModules, m < ctx.next) {n : String}
    {m : ModulePtr} (hm : ctx.findLoadedModule n = some m) : ctx'.findLoadedModule n = some m := by
  have heq : ∀ l : List ModulePtr, (∀ p ∈ l, p < ctx.next) →
      (l.find? fun p => (ctx'.defs p).moduleName = n) =
        l.find? fun p => (ctx.defs p).moduleName = n := by
    intro l
    induction l with
    | nil => intro _; rfl
    | cons p l ih =>
      intro hl
      rw [List.find?_cons, List.find?_cons, ih fun q hq => hl q (List.mem_cons_of_mem p hq),
        h.name_eq p (hl p List.mem_cons_self)]
  rw [findLoadedModule] at hm
  rw [findLoadedModule, h.loaded_eq, List.find?_append, heq _ hlt, hm, Option.some_or]

theorem binds (h : ctx.Grows new ctx') (hlt : ∀ m ∈ ctx.loadedModules, m < ctx.next)
    {base name : String} {m : ModulePtr} (hm : ctx.Binds base name m) : ctx'.Binds base name m := by
  obtain ⟨n, hn, hm⟩ := hm
  exact ⟨n, hn, h.find_eq hlt hm⟩

theorem importedFrom (h : ctx.Grows new ctx') {a b : ModulePtr} (hab : ctx.ImportedFrom a b) :
    ctx'.ImportedFrom a b :=
  Relation.ReflTransGen.mono (fun p _ hp =>
    ⟨Nat.lt_of_lt_of_le hp.1 h.next_le, h.modules_subset p hp.1 hp.2⟩) _ _ hab

theorem complete (h : ctx.Grows new ctx') (hlt : ∀ m ∈ ctx.loadedModules, m < ctx.next)
    {m : ModulePtr} (hdef : ctx'.defs m = ctx.defs m) (hm : ctx.Complete m) : ctx'.Complete m := by
  rw [Complete, hdef]
  exact ⟨hm.1, hm.2.imp fun _ _ => h.binds hlt⟩

end Grows

end Context

/-! ## One module after another -/

/-- It has not been evaluated, and is not being. -/
def ModuleDef.Idle (d : ModuleDef V) : Prop := d.evaluated = false ∧ d.evalMark = false

namespace Context

/-- `new` have been imported: each script was asked for once, in this order, and all their requests
are bound. Of the older modules only `m` has changed. -/
structure Imported (ctx : Context V) (m : Option ModulePtr) (new : List ModulePtr)
    (ctx' : Context V) : Prop extends ctx.Grows new ctx' where
  scripts_eq : ctx'.scripts = ctx.scripts ++ new.map fun p => (ctx'.defs p).moduleName
  complete : ∀ p ∈ new, ctx'.Complete p
  idle : ∀ p ∈ new, (ctx'.defs p).Idle
  defs_eq : ∀ p < ctx.next, some p ≠ m → ctx'.defs p = ctx.defs p

namespace Imported

variable {ctx ctx' ctx'' : Context V} {m : ModulePtr} {e : Option ModulePtr}
  {new new' : List ModulePtr}

theorem refl : ctx.Imported e [] ctx where
  loaded_eq := (List.append_nil _).symm
  mem_new := by simp
  next_le := Nat.le_refl _
  name_eq _ _ := rfl
  modules_subset _ _ := List.Subset.refl _
  ran_eq := rfl
  scripts_eq := by simp
  complete := by simp
  idle := by simp
  defs_eq _ _ _ := rfl

theorem lt_next (h : ctx.Imported e new ctx') (hlt : ∀ p ∈ ctx.loadedModules, p < ctx.next) :
    ∀ p ∈ ctx'.loadedModules, p < ctx'.next := by
  intro p hp
  rw [h.loaded_eq] at hp
  rcases List.mem_append.1 hp with hp | hp
  · exact Nat.lt_of_lt_of_le (hlt p hp) h.next_le
  · exact (h.mem_new p hp).2

theorem begun (h : ctx.Imported none new ctx') (hb : ctx.Begun) : ctx'.Begun := by
  intro p hp
  refine ⟨h.lt_next (fun q hq => (hb q hq).1) p hp, ?_⟩
  rw [h.loaded_eq] at hp
  rcases List.mem_append.1 hp with hp | hp
  · rw [h.defs_eq p (hb p hp).1 (by simp)]
    exact (hb p hp).2
  · exact (h.complete p hp).1

/-- One more import of `m` is bound. -/
theorem setModule (h : ctx.Imported none new ctx') (hm : m < ctx.next) (q : ModulePtr)
    (hlt : ∀ p ∈ ctx.loadedModules, p < ctx.next) :
    ctx.Imported (some m) new (ctx'.setModule m q) := by
  have hne : ∀ p ∈ new, p ≠ m := fun p hp => Nat.ne_of_gt (Nat.lt_of_lt_of_le hm (h.mem_new p hp).1)
  refine { h.toGrows.setModule m q with
    scripts_eq := ?_
    complete := fun p hp => (Grows.setModule_self m q).complete (h.lt_next hlt)
      (modify_defs_of_ne _ (hne p hp)) (h.complete p hp)
    idle := fun p hp => by
      rw [Context.setModule, modify_defs_of_ne _ (hne p hp)]
      exact h.idle p hp
    defs_eq := fun p hp hpm => ?_ }
  · rw [setModule_scripts, h.scripts_eq]
    exact congrArg _ (List.map_congr_left fun p _ => (setModule_moduleName m q p).symm)
  · rw [Context.setModule, modify_defs_of_ne _ (by rintro rfl; exact hpm rfl), h.defs_eq p hp (by simp)]

theorem trans (h : ctx.Imported (some m) new ctx') (h' : ctx'.Imported (some m) new' ctx'')
    (hm : m < ctx.next) (hlt : ∀ p ∈ ctx.loadedModules, p < ctx.next) :
    ctx.Imported (some m) (new ++ new') ctx'' := by
  have hdef : ∀ p ∈ new, ctx''.defs p = ctx'.defs p := fun p hp => by
    have hmp := Nat.lt_of_lt_of_le hm (h.mem_new p hp).1
    exact h'.defs_eq p (h.mem_new p hp).2 fun he => Nat.ne_of_gt hmp (Option.some.inj he)
  refine { h.toGrows.trans h'.toGrows with
    scripts_eq := ?_
    complete := fun p hp => ?_
    idle := fun p hp => ?_
    defs_eq := fun p hp hpm => ?_ }
  · rw [h'.scripts_eq, h.scripts_eq, List.map_append, List.append_assoc]
    congr 2
    exact List.map_congr_left fun p hp => by rw [hdef p hp]
  · rcases List.mem_append.1 hp with hp | hp
    · exact h'.toGrows.complete (h.lt_next hlt) (hdef p hp) (h.complete p hp)
    · exact h'.complete p hp
  · rcases List.mem_append.1 hp with hp | hp
    · rw [hdef p hp]
      exact h.idle p hp
    · exact h'.idle p hp
  · rw [h'.defs_eq p (Nat.lt_of_lt_of_le hp h.next_le) hpm, h.defs_eq p hp hpm]

end Imported

end Context

section

variable {H : Host V}

theorem resolveModule_of_resolved {fuel : Nat} {ctx : Context V} {m : ModulePtr} (hf : 0 < fuel)
    (h : (ctx.defs m).resolved = true) : resolveModule H fuel ctx m = some (true, ctx) := by
  obtain ⟨k, rfl⟩ := Nat.exists_eq_succ_of_ne_zero (Nat.ne_of_gt hf)
  rw [resolveModule, if_pos h]

/-- A module that has been imported has been begun with: resolving it again does nothing. -/
theorem resolveModule_again {fuel : Nat} {ctx : Context V} {base name : String} {m m1 : ModulePtr}
    (hb : ctx.Begun) (h : ctx.Binds base name m1) :
    resolveModule H fuel (ctx.setModule m m1) m1 =
      if fuel = 0 then none else some (true, ctx.setModule m m1) := by
  obtain ⟨n, -, hfind⟩ := h
  split_ifs with hf
  · rw [hf, resolveModule]
  · refine resolveModule_of_resolved (Nat.pos_of_ne_zero hf) ?_
    rw [Context.setModule_resolved]
    exact (hb m1 (Context.mem_of_findLoadedModule hfind).1).2

theorem Context.Begun.setModule {ctx : Context V} (hb : ctx.Begun) (m m1 : ModulePtr) :
    (ctx.setModule m m1).Begun := fun p hp =>
  ⟨(hb p hp).1, by rw [Context.setModule_resolved]; exact (hb p hp).2⟩

/-- What an import that succeeds does to the table. -/
def Imports (H : Host V) (fuel : Nat) : Prop :=
  ∀ (ctx : Context V) (base name : String) (m1 : ModulePtr) (ctx' : Context V), ctx.Begun →
    hostResolve H (resolveModule H fuel) ctx base name = some (some m1, ctx') →
    ∃ new, ctx.Imported none new ctx' ∧ ctx'.Binds base name m1 ∧
      ∀ p ∈ new, ctx'.ImportedFrom m1 p

theorem resolveRequests_imported {fuel : Nat} (ih : Imports H fuel) {m : ModulePtr} {base : String} :
    ∀ (reqs : List String) (ctx ctx' : Context V), ctx.Begun → m ∈ ctx.loadedModules →
      (ctx.defs m).moduleName = base →
      resolveRequests H (resolveModule H fuel) m reqs ctx = some (true, ctx') →
      ∃ new bound, ctx.Imported (some m) new ctx' ∧
        ctx'.defs m = { ctx.defs m with modules := (ctx.defs m).modules ++ bound } ∧
        List.Forall₂ (ctx'.Binds base) reqs bound ∧
        ∀ p ∈ new, ∃ q ∈ bound, ctx'.ImportedFrom q p := by
  intro reqs
  induction reqs with
  | nil =>
    intro ctx ctx' _ _ _ h
    simp only [resolveRequests, Option.some.injEq, Prod.mk.injEq, true_and] at h
    subst h
    exact ⟨[], [], .refl, by simp, .nil, by simp⟩
  | cons name reqs ihr =>
    intro ctx ctx'' hb hm hbase h
    rw [resolveRequests, hbase] at h
    split at h
    · cases h
    · cases h
    next m1 ctx' hres =>
      obtain ⟨new, himp, hbinds, hfrom⟩ := ih ctx base name m1 ctx' hb hres
      have hlt : ∀ p ∈ ctx.loadedModules, p < ctx.next := fun p hp => (hb p hp).1
      have hb' := himp.begun hb
      have hdef : ctx'.defs m = ctx.defs m := himp.defs_eq m (hlt m hm) (by simp)
      rw [resolveModule_again hb' hbinds] at h
      by_cases hf : fuel = 0
      · simp only [hf, if_true, reduceCtorEq] at h
      simp only [if_neg hf] at h
      obtain ⟨new', bound, himp', hdef', hall, hfrom'⟩ := ihr (ctx'.setModule m m1) ctx''
        (hb'.setModule m m1) (himp.loaded_eq ▸ List.mem_append_left new hm)
        (by rw [Context.setModule_moduleName, hdef, hbase]) h
      have hset : ctx'.Grows [] (ctx'.setModule m m1) := .setModule_self m m1
      refine ⟨new ++ new', m1 :: bound,
        (himp.setModule (hlt m hm) m1 hlt).trans himp' (hlt m hm) hlt, ?_, .cons ?_ hall,
        fun p hp => ?_⟩
      · rw [hdef', Context.setModule, Context.modify_defs_self, hdef]
        simp
      · have hlt' := himp.lt_next hlt
        exact himp'.toGrows.binds hlt' (hset.binds hlt' hbinds)
      · rcases List.mem_append.1 hp with hp | hp
        · exact ⟨m1, List.mem_cons_self,
            himp'.toGrows.importedFrom (hset.importedFrom (hfrom p hp))⟩
        · obtain ⟨q, hq, hqp⟩ := hfrom' p hp
          exact ⟨q, List.mem_cons_of_mem m1 hq, hqp⟩

/-- The new module, when its requests are looked at. -/
def Context.opened (ctx : Context V) (moduleName : String) (requests : List String) : Context V :=
  { ctx with
    defs := Function.update ctx.defs ctx.next { moduleName, requests, resolved := true }
    next := ctx.next + 1
    loadedModules := ctx.loadedModules ++ [ctx.next] }

theorem Context.opened_defs_of_lt {ctx : Context V} (moduleName : String) (requests : List String)
    {p : ModulePtr} (hp : p < ctx.next) : (ctx.opened moduleName requests).defs p = ctx.defs p :=
  Function.update_of_ne (Nat.ne_of_lt hp) ..

theorem Context.grows_opened {ctx : Context V} (moduleName : String) (requests : List String) :
    ctx.Grows [ctx.next] (ctx.opened moduleName requests) where
  loaded_eq := rfl
  mem_new p hp := by
    rw [List.mem_singleton.1 hp]
    exact ⟨Nat.le_refl _, Nat.lt_succ_self _⟩
  next_le := Nat.le_succ _
  name_eq p hp := by rw [Context.opened_defs_of_lt _ _ hp]
  modules_subset p hp := by
    rw [Context.opened_defs_of_lt _ _ hp]
    exact List.Subset.refl _
  ran_eq := rfl

theorem evalInternal_eq {fuel : Nat} {ctx : Context V} {source moduleName : String}
    {specifiers : List String} (hparse : H.parse source = some specifiers) :
    evalInternal H (resolveModule H (fuel + 1)) ctx source moduleName =
      match resolveRequests H (resolveModule H fuel) ctx.next (reqModuleEntries specifiers)
        (ctx.opened moduleName (reqModuleEntries specifiers)) with
      | none => none
      | some (false, ctx') => some (none, ctx'.freeModuleDef ctx.next)
      | some (true, ctx') => some (some ctx.next, ctx') := by
  have hopened : resolveModule H (fuel + 1) ((ctx.newModuleDef moduleName).modify ctx.next fun d =>
      { d with requests := reqModuleEntries specifiers }) ctx.next =
      resolveRequests H (resolveModule H fuel) ctx.next (reqModuleEntries specifiers)
        (ctx.opened moduleName (reqModuleEntries specifiers)) := by
    simp only [resolveModule, Context.newModuleDef, Context.modify, Context.opened,
      Function.update_self, Function.update_idem, Bool.false_eq_true, if_false]
  cases hrun : resolveRequests H (resolveModule H fuel) ctx.next (reqModuleEntries specifiers)
      (ctx.opened moduleName (reqModuleEntries specifiers)) with
  | none =>
    rw [hrun] at hopened
    simp only [evalInternal, hparse, hopened]
  | some r =>
    rw [hrun] at hopened
    obtain ⟨b, ctx'⟩ := r
    cases b with
    | false => simp only [evalInternal, hparse, hopened]
    | true => simp only [evalInternal, hparse, hopened]

/-- A module has been loaded, and then what it imports. -/
structure Context.Loaded (ctx : Context V) (moduleName : String) (specifiers : List String)
    (new : List ModulePtr) (ctx' : Context V) : Prop extends ctx.Grows (ctx.next :: new) ctx' where
  moduleName_eq : (ctx'.defs ctx.next).moduleName = moduleName
  requests_eq : (ctx'.defs ctx.next).requests = reqModuleEntries specifiers
  scripts_eq : ctx'.scripts = ctx.scripts ++ new.map fun p => (ctx'.defs p).moduleName
  complete : ∀ p ∈ ctx.next :: new, ctx'.Complete p
  idle : ∀ p ∈ ctx.next :: new, (ctx'.defs p).Idle
  importedFrom : ∀ p ∈ ctx.next :: new, ctx'.ImportedFrom ctx.next p
  defs_eq : ∀ p < ctx.next, ctx'.defs p = ctx.defs p

theorem Context.opened_defs_self {ctx : Context V} (moduleName : String) (requests : List String) :
    (ctx.opened moduleName requests).defs ctx.next = { moduleName, requests, resolved := true } :=
  Function.update_self ..

theorem Context.opened_moduleName {ctx : Context V} (moduleName : String) (requests : List String) :
    ((ctx.opened moduleName requests).defs ctx.next).moduleName = moduleName := by
  rw [Context.opened_defs_self]

theorem Context.Begun.opened {ctx : Context V} (hb : ctx.Begun) (moduleName : String)
    (requests : List String) : (ctx.opened moduleName requests).Begun := fun p hp => by
  rcases List.mem_append.1 hp with hp | hp
  · refine ⟨Nat.lt_succ_of_lt (hb p hp).1, ?_⟩
    rw [Context.opened_defs_of_lt _ _ (hb p hp).1]
    exact (hb p hp).2
  · rw [List.mem_singleton.1 hp, Context.opened_defs_self]
    exact ⟨Nat.lt_succ_self _, rfl⟩

theorem evalInternal_loaded {fuel : Nat} (ih : Imports H fuel) {ctx ctx' : Context V} (hb : ctx.Begun)
    {source moduleName : String} {m : ModulePtr}
    (h : evalInternal H (resolveModule H (fuel + 1)) ctx source moduleName = some (some m, ctx')) :
    m = ctx.next ∧ ∃ specifiers new, H.parse source = some specifiers ∧
      ctx.Loaded moduleName specifiers new ctx' := by
  cases hparse : H.parse source with
  | none => simp [evalInternal, hparse] at h
  | some specifiers =>
    rw [evalInternal_eq hparse] at h
    split at h
    · cases h
    · simp at h
    next t hrun =>
      simp only [Option.some.injEq, Prod.mk.injEq] at h
      obtain ⟨rfl, rfl⟩ := h
      obtain ⟨new, bound, himp, hdef, hall, hfrom⟩ := resolveRequests_imported ih _ _ _
        (hb.opened moduleName _) (List.mem_append_right _ (List.mem_singleton_self _))
        (Context.opened_moduleName moduleName _) hrun
      rw [Context.opened_defs_self] at hdef
      refine ⟨rfl, specifiers, new, rfl, { (ctx.grows_opened moduleName _).trans himp.toGrows with
        moduleName_eq := by rw [hdef]
        requests_eq := by rw [hdef]
        scripts_eq := himp.scripts_eq
        complete := fun p hp => ?_
        idle := fun p hp => ?_
        importedFrom := fun p hp => ?_
        defs_eq := fun p hp => ?_ }⟩
      · rcases List.mem_cons.1 hp with rfl | hp
        · rw [Context.Complete, hdef]
          exact ⟨rfl, hall⟩
        · exact himp.complete p hp
      · rcases List.mem_cons.1 hp with rfl | hp
        · rw [hdef]
          exact ⟨rfl, rfl⟩
        · exact himp.idle p hp
      · rcases List.mem_cons.1 hp with rfl | hp
        · exact .refl
        · obtain ⟨q, hq, hqp⟩ := hfrom p hp
          refine .head ⟨Nat.lt_of_lt_of_le (Nat.lt_succ_self _) himp.next_le, ?_⟩ hqp
          rw [hdef]
          exact hq
      · rw [himp.defs_eq p (Nat.lt_succ_of_lt hp) fun he => Nat.ne_of_lt hp (Option.some.inj he),
          Context.opened_defs_of_lt _ _ hp]

theorem Context.Loaded.imported {ctx ctx' : Context V} {moduleName : String}
    {specifiers : List String} {new : List ModulePtr}
    (h : ({ ctx with scripts := ctx.scripts ++ [moduleName] } : Context V).Loaded moduleName
      specifiers new ctx') : ctx.Imported none (ctx.next :: new) ctx' where
  loaded_eq := h.loaded_eq
  mem_new := h.mem_new
  next_le := h.next_le
  name_eq := h.name_eq
  modules_subset := h.modules_subset
  ran_eq := h.ran_eq
  scripts_eq := by
    rw [h.scripts_eq, List.map_cons, h.moduleName_eq, List.append_assoc, List.singleton_append]
  complete := h.complete
  idle := h.idle
  defs_eq p hp _ := h.defs_eq p hp

theorem imports (H : Host V) : ∀ fuel, Imports H fuel := by
  intro fuel
  induction fuel with
  | zero =>
    intro ctx base name m1 ctx' _ h
    simp only [hostResolve] at h
    split at h
    · simp at h
    next n hn =>
      split at h
      next m hfind =>
        simp only [Option.some.injEq, Prod.mk.injEq] at h
        obtain ⟨rfl, rfl⟩ := h
        exact ⟨[], .refl, ⟨n, hn, hfind⟩, by simp⟩
      next =>
        simp only [moduleLoader, evalInternal, resolveModule] at h
        split at h
        · simp at h
        · split at h <;> simp at h
  | succ fuel ih =>
    intro ctx base name m1 ctx' hb h
    simp only [hostResolve] at h
    split at h
    · simp at h
    next n hn =>
      split at h
      next m hfind =>
        simp only [Option.some.injEq, Prod.mk.injEq] at h
        obtain ⟨rfl, rfl⟩ := h
        exact ⟨[], .refl, ⟨n, hn, hfind⟩, by simp⟩
      next hfind =>
        simp only [moduleLoader] at h
        split at h
        · simp at h
        next script _ =>
          have hb' : ({ ctx with scripts := ctx.scripts ++ [n] } : Context V).Begun := hb
          obtain ⟨rfl, specifiers, new, -, hl⟩ := evalInternal_loaded ih hb' h
          refine ⟨_, hl.imported, ⟨n, hn, ?_⟩, hl.importedFrom⟩
          -- the new module is the first of its name
          rw [Context.findLoadedModule, hl.loaded_eq, List.find?_append,
            List.find?_eq_none.2 fun p hp => ?_, Option.none_or, List.find?_cons_of_pos]
          · simpa using hl.moduleName_eq
          · rw [decide_eq_true_eq, hl.name_eq p (hb p hp).1]
            exact fun hp' => Context.findLoadedModule_eq_none.1 hfind (List.mem_map.2 ⟨p, hp, hp'⟩)

/-! ## By name and in the table -/

/-- An import that succeeds by name does so in the table, and one that fails by name fails there. -/
def Simulates (H : Host V) (fuel : Nat) : Prop :=
  ∀ (ctx : Context V) (base name : String) (r : Except Unit Unit) (names' : List String), ctx.Begun →
    visit (loading H) fuel ctx.names (normalize base name) = some (r, names') →
    ∃ r' ctx', hostResolve H (resolveModule H fuel) ctx base name = some (r', ctx') ∧
      (r = .ok () → (∃ m1, r' = some m1) ∧ ctx'.names = names') ∧ (r = .error () → r' = none)

theorem resolveRequests_simulates {fuel : Nat} (ih : Simulates H fuel) {m : ModulePtr} {base : String} :
    ∀ (reqs : List String) (ctx : Context V) (r : Except Unit Unit) (names' : List String),
      ctx.Begun → m ∈ ctx.loadedModules → (ctx.defs m).moduleName = base →
      each (visit (loading H) fuel) (reqs.map (normalize base)) ctx.names = some (r, names') →
      ∃ b ctx', resolveRequests H (resolveModule H fuel) m reqs ctx = some (b, ctx') ∧
        (r = .ok () → b = true ∧ ctx'.names = names') ∧ (r = .error () → b = false) := by
  intro reqs
  induction reqs with
  | nil =>
    intro ctx r names' _ _ _ h
    simp only [List.map_nil, each, Option.some.injEq, Prod.mk.injEq] at h
    obtain ⟨rfl, rfl⟩ := h
    exact ⟨true, ctx, rfl, fun _ => ⟨rfl, rfl⟩, by simp⟩
  | cons name reqs ihr =>
    intro ctx r names' hb hm hbase h
    rw [List.map_cons, each] at h
    split at h
    · cases h
    next e t hv =>
      simp only [Option.some.injEq, Prod.mk.injEq] at h
      obtain ⟨rfl, rfl⟩ := h
      obtain ⟨r', ctx', hres, -, hnone⟩ := ih ctx base name (.error e) t hb hv
      obtain rfl := hnone rfl
      exact ⟨false, ctx', by rw [resolveRequests, hbase, hres], by simp, fun _ => rfl⟩
    next t hv =>
      obtain ⟨r', ctx', hres, hok, -⟩ := ih ctx base name (.ok ()) t hb hv
      obtain ⟨⟨m1, rfl⟩, hnames⟩ := hok rfl
      obtain ⟨new, himp, hbinds, -⟩ := imports H fuel ctx base name m1 ctx' hb hres
      have hb' := himp.begun hb
      have hf : fuel ≠ 0 := by rintro rfl; simp [visit] at hv
      have hdef : ctx'.defs m = ctx.defs m := himp.defs_eq m (hb m hm).1 (by simp)
      obtain ⟨b, ctx'', hrun, hrest⟩ := ihr (ctx'.setModule m m1) r names' (hb'.setModule m m1)
        (himp.loaded_eq ▸ List.mem_append_left new hm)
        (by rw [Context.setModule_moduleName, hdef, hbase])
        (by rw [Context.setModule_names, hnames]; exact h)
      exact ⟨b, ctx'', by simp only [resolveRequests, hbase, hres, resolveModule_again hb' hbinds,
        if_neg hf, hrun], hrest⟩

theorem evalInternal_simulates {fuel : Nat} (ih : Simulates H fuel) {ctx : Context V}
    (hb : ctx.Begun) {source moduleName : String} {specifiers : List String}
    (hparse : H.parse source = some specifiers) {r : Except Unit Unit} {names' : List String}
    (h : each (visit (loading H) fuel) ((reqModuleEntries specifiers).map (normalize moduleName))
      (ctx.names ++ [moduleName]) = some (r, names')) :
    ∃ r' ctx', evalInternal H (resolveModule H (fuel + 1)) ctx source moduleName = some (r', ctx') ∧
      (r = .ok () → r' = some ctx.next ∧ ctx'.names = names') ∧ (r = .error () → r' = none) := by
  have hnames : (ctx.opened moduleName (reqModuleEntries specifiers)).names =
      ctx.names ++ [moduleName] := by
    rw [(ctx.grows_opened moduleName _).names_eq fun p hp => (hb p hp).1, List.map_singleton,
      Context.opened_defs_self]
  obtain ⟨b, ctx', hrun, hok, herr⟩ := resolveRequests_simulates ih (reqModuleEntries specifiers)
    (ctx.opened moduleName (reqModuleEntries specifiers)) r names' (hb.opened moduleName _)
    (List.mem_append_right _ (List.mem_singleton_self _)) (Context.opened_moduleName moduleName _)
    (by rw [hnames]; exact h)
  rw [evalInternal_eq hparse, hrun]
  cases r with
  | error e =>
    obtain rfl := herr rfl
    exact ⟨none, _, rfl, by simp, fun _ => rfl⟩
  | ok u =>
    obtain ⟨rfl, hnames'⟩ := hok rfl
    exact ⟨some ctx.next, ctx', rfl, fun _ => ⟨rfl, hnames'⟩, by simp⟩

/-- A name that is not in the table. -/
theorem moduleLoader_simulates {fuel : Nat} (ih : Simulates H fuel) {ctx : Context V} (hb : ctx.Begun)
    {n : String} (hmem : n ∉ ctx.names) {r : Except Unit Unit} {names' : List String}
    (h : visit (loading H) (fuel + 1) ctx.names (some n) = some (r, names')) :
    ∃ r' ctx', moduleLoader H (resolveModule H (fuel + 1)) ctx n = some (r', ctx') ∧
      (r = .ok () → r' = some ctx.next ∧ ctx'.names = names') ∧ (r = .error () → r' = none) := by
  cases himports : (H.getModuleScript n).bind H.parse with
  | none =>
    have hnone : importsOf H n = none := by simp only [importsOf, himports]
    rw [visit_of_skip (W := loading H) (r := .error ()) rfl (by simp [loading, hmem, hnone]),
      Option.some.injEq, Prod.mk.injEq] at h
    obtain ⟨rfl, rfl⟩ := h
    cases hscript : H.getModuleScript n with
    | none => exact ⟨none, _, by simp only [moduleLoader, hscript]; rfl, by simp, fun _ => rfl⟩
    | some script =>
      rw [hscript, Option.bind_some] at himports
      exact ⟨none, _, by simp only [moduleLoader, hscript, evalInternal, himports]; rfl, by simp,
        fun _ => rfl⟩
  | some specifiers =>
    obtain ⟨script, hscript, hparse⟩ := Option.bind_eq_some_iff.1 himports
    have hsome : importsOf H n = some ((reqModuleEntries specifiers).map (normalize n)) := by
      simp only [importsOf, himports]
    have hskip : (loading H).skip ctx.names (some n) = none :=
      loading_skip_none.2 ⟨n, rfl, hmem, by simp [hsome]⟩
    have hkids : (loading H).children ctx.names (some n) =
        (reqModuleEntries specifiers).map (normalize n) := by
      simp [loading, edges, hsome]
    have hb' : ({ ctx with scripts := ctx.scripts ++ [n] } : Context V).Begun := hb
    rw [visit_of_enter rfl hskip, hkids] at h
    simp only [moduleLoader, hscript]
    split at h
    · cases h
    next e t hrow =>
      simp only [Option.some.injEq, Prod.mk.injEq] at h
      obtain ⟨rfl, rfl⟩ := h
      obtain ⟨r', ctx', heval, -, hnone⟩ := evalInternal_simulates ih hb' hparse hrow
      exact ⟨r', ctx', heval, by simp, hnone⟩
    next t hrow =>
      simp only [loading, Option.some.injEq, Prod.mk.injEq] at h
      obtain ⟨rfl, rfl⟩ := h
      exact evalInternal_simulates ih hb' hparse hrow

/-- The engine loads as the walk by name does, however deep. -/
theorem simulates (H : Host V) : ∀ fuel, Simulates H fuel := by
  intro fuel
  induction fuel with
  | zero => intro ctx base name r names' _ h; simp only [visit, reduceCtorEq] at h
  | succ fuel ih =>
    intro ctx base name r names' hb h
    cases hn : normalize base name with
    | none =>
      rw [hn, visit_of_skip (W := loading H) (r := .error ()) rfl rfl, Option.some.injEq,
        Prod.mk.injEq] at h
      obtain ⟨rfl, rfl⟩ := h
      exact ⟨none, ctx, by simp only [hostResolve, hn], by simp, fun _ => rfl⟩
    | some n =>
      rw [hn] at h
      cases hfind : ctx.findLoadedModule n with
      | some m1 =>
        have hmem : n ∈ ctx.names := by
          by_contra hmem
          rw [Context.findLoadedModule_eq_none.2 hmem] at hfind
          cases hfind
        rw [visit_of_skip (W := loading H) rfl (loading_skip_ok.2 ⟨n, rfl, hmem⟩), Option.some.injEq,
          Prod.mk.injEq] at h
        obtain ⟨rfl, rfl⟩ := h
        exact ⟨some m1, ctx, by simp only [hostResolve, hn, hfind], fun _ => ⟨⟨m1, rfl⟩, rfl⟩, by simp⟩
      | none =>
        obtain ⟨r', ctx', hload, hok, herr⟩ :=
          moduleLoader_simulates ih hb (Context.findLoadedModule_eq_none.1 hfind) h
        exact ⟨r', ctx', by simp only [hostResolve, hn, hfind, hload],
          fun hr => ⟨⟨_, (hok hr).1⟩, (hok hr).2⟩, herr⟩

/-! ## What is loaded -/

/-- The names that have to be looked up: the imports of the module itself, and those of a module that
is not in the table yet. -/
inductive Needed (H : Host V) (names : List String) (roots : List (Option String)) :
    Option String → Prop
  | root {x : Option String} : x ∈ roots → Needed H names roots x
  | next {n : String} {x : Option String} : Needed H names roots (some n) → n ∉ names →
      x ∈ edges H (some n) → Needed H names roots x

/-- The name is in the table or has a script that parses. -/
def Loadable (H : Host V) (names : List String) (x : Option String) : Prop :=
  ∃ n, x = some n ∧ (n ∈ names ∨ (importsOf H n).isSome)

theorem needed_iff {names : List String} {roots : List (Option String)} {x : Option String} :
    Needed H names roots x ↔ ∃ r ∈ roots, Reach (loading H) (edges H) names r x := by
  constructor
  · intro h
    induction h with
    | root hx => exact ⟨_, hx, .refl⟩
    | @next n x _ hn hx ih =>
      obtain ⟨r, hr, hreach⟩ := ih
      have hsome : (importsOf H n).isSome := by
        cases himports : importsOf H n with
        | some xs => rfl
        | none => simp [edges, himports] at hx
      exact ⟨r, hr, hreach.tail ⟨loading_skip_none.2 ⟨n, rfl, hn, hsome⟩, hx⟩⟩
  · rintro ⟨r, hr, hreach⟩
    induction hreach with
    | refl => exact .root hr
    | tail _ hstep ih =>
      obtain ⟨n, rfl, hn, -⟩ := loading_skip_none.1 hstep.1
      exact ih.next hn hstep.2

theorem loadable_iff {names : List String} {x : Option String} :
    Loadable H names x ↔ ∀ e, ¬ Fails (loading H) (fun _ => .ok ()) names e x := by
  cases x with
  | none => simp [Loadable, Fails, loading]
  | some n =>
    by_cases hn : n ∈ names
    · simp [Loadable, Fails, loading, hn]
    · cases himports : importsOf H n <;> simp [Loadable, Fails, loading, hn, himports]

/-- The walk by name ends on a finite graph of imports, and adds names of the graph, each once. -/
theorem loading_ends {names : List String} {U : List (Option String)}
    (hclosed : ∀ x ∈ U, ∀ y ∈ edges H x, y ∈ U) {roots : List (Option String)}
    (hroots : ∀ x ∈ roots, x ∈ U) {fuel : Nat} (hfuel : U.length < fuel) :
    ∃ r names', each (visit (loading H) fuel) roots names = some (r, names') ∧
      (r = .ok () → names'.length ≤ names.length + U.length) := by
  have L := loading_lawful (H := H) names
  have hI : LoadedAfter names names := ⟨[], by simp, List.nodup_nil, by simp⟩
  have hU : unmarked (loading H) U names ≤ U.length := List.countP_le_length
  have hrow : (each (visit (loading H) fuel) roots names).isSome :=
    each_isSome L (fun _ _ _ _ => rfl) hclosed hroots hI (by omega)
  obtain ⟨⟨r, names'⟩, hrun⟩ := Option.isSome_iff_exists.1 hrow
  refine ⟨r, names', hrun, ?_⟩
  rintro rfl
  obtain ⟨⟨added, rfl, hnodup, hnew⟩, hex⟩ := each_explores L hI hrun
  have hreach : ∀ r ∈ roots, ∀ x, Reach (loading H) (edges H) names r x → x ∈ U := by
    intro r hr x hx
    induction hx with
    | refl => exact hroots r hr
    | tail _ hstep ih => exact hclosed _ ih _ hstep.2
  have hsub : added.map some ⊆ U := by
    intro x hx
    obtain ⟨n, hn, rfl⟩ := List.mem_map.1 hx
    have hin : (loading H).skip (names ++ added) (some n) = some (.ok ()) :=
      loading_skip_ok.2 ⟨n, rfl, List.mem_append_right _ hn⟩
    have hnone : (loading H).skip names (some n) = none := by
      by_contra hne
      rw [hex.kept _ hne, loading_skip_ok] at hin
      obtain ⟨_, he, hin⟩ := hin
      exact hnew n hn (Option.some.inj he ▸ hin)
    obtain ⟨r, hr, hx⟩ := (hex.fresh_iff hnone).1 hin
    exact hreach r hr _ hx
  have hcard : (added.map some).length ≤ U.length :=
    (List.subperm_of_subset (hnodup.map fun _ _ h => Option.some.inj h) hsub).length_le
  rw [List.length_append]
  rw [List.length_map] at hcard
  omega

/-- Loading ends, and what has been loaded is bounded. -/
theorem evalInternal_ends {ctx : Context V} (hb : ctx.Begun) {source moduleName : String}
    {U : List (Option String)} (hclosed : ∀ x ∈ U, ∀ y ∈ edges H x, y ∈ U)
    (hroots : ∀ specifiers, H.parse source = some specifiers →
      ∀ name ∈ reqModuleEntries specifiers, normalize moduleName name ∈ U)
    {fuel : Nat} (hfuel : U.length + 2 ≤ fuel) :
    ∃ r ctx', evalInternal H (resolveModule H fuel) ctx source moduleName = some (r, ctx') ∧
      (r ≠ none → ctx'.loadedModules.length ≤ ctx.loadedModules.length + 1 + U.length) := by
  obtain ⟨k, rfl⟩ : ∃ k, fuel = k + 1 := ⟨fuel - 1, by omega⟩
  cases hparse : H.parse source with
  | none => exact ⟨none, _, by simp only [evalInternal, hparse]; rfl, by simp⟩
  | some specifiers =>
    have hroots' : ∀ x ∈ (reqModuleEntries specifiers).map (normalize moduleName), x ∈ U := by
      intro x hx
      obtain ⟨name, hname, rfl⟩ := List.mem_map.1 hx
      exact hroots specifiers hparse name hname
    obtain ⟨r, names', hrun, hlength⟩ : ∃ r names', each _ _ (ctx.names ++ [moduleName]) = _ ∧ _ :=
      loading_ends hclosed hroots' (show U.length < k by omega)
    obtain ⟨r', ctx', heval, hok, herr⟩ := evalInternal_simulates (simulates H k) hb hparse hrun
    refine ⟨r', ctx', heval, ?_⟩
    intro hr'
    cases r with
    | error e => exact absurd (herr rfl) hr'
    | ok u =>
      have hnames := (hok rfl).2
      have hle := hlength rfl
      rw [← hnames] at hle
      simp only [Context.names, List.length_append, List.length_map, List.length_singleton] at hle
      omega

end

/-- Two modules that import one another. -/
def crossing : Host Unit where
  getModuleScript n := if n = "a.js" then some "a" else if n = "b.js" then some "b" else none
  parse s := if s = "a" then some ["./b.js"] else if s = "b" then some ["./a.js"] else none
  links _ := true
  body _ := none

end HybridStack.QuickJs.ES6Module
