import HybridStack.QuickJs.ModuleName
import Mathlib.Data.List.TakeWhile
import Mathlib.Data.List.Infix

/-!
# What `Module.convertModuleName` returns, and when

Main results:
- **`convertModuleName_returns_iff`**: exactly when no index is out of bounds. The three calls that
  can fail are each guarded in one place and not in another: `charAt` after the test for an empty
  name but also after `substring(2)`, `remove` after the loop but not in it, `deleteCharAt` nowhere.
- **`convertModuleName_relative_iff`**: a base and a relative name made of ordinary segments give
  the path one expects if and only if the base is not absolute. For an absolute base both the empty
  first segment of `split` and the prefix that is appended stand for the root:
  `convertModuleName_relative` is the result with its two slashes.
-/

namespace HybridStack.QuickJs

namespace ModuleName

/-! ## Separating and joining -/

/-- Segments joined by single slashes. -/
abbrev joined (segments : List (List Char)) : List Char := ['/'].intercalate segments

theorem pieces_eq_splitOn (cs : List Char) : pieces cs = cs.splitOn '/' := by
  induction cs with
  | nil => rfl
  | cons c cs ih =>
    rw [pieces, List.splitOn_cons_eq_if_modifyHead, ← ih]
    by_cases hc : c = '/'
    · simp [hc]
    · cases hp : pieces cs with
      | nil => exact absurd (ih ▸ hp) (List.splitOn_ne_nil _ _)
      | cons p ps => simp [hc]

theorem pieces_ne_nil (cs : List Char) : pieces cs ≠ [] := by
  rw [pieces_eq_splitOn]
  exact List.splitOn_ne_nil _ _

theorem pieces_joined {segments : List (List Char)} (h : ∀ s ∈ segments, '/' ∉ s)
    (hne : segments ≠ []) : pieces (joined segments) = segments := by
  rw [pieces_eq_splitOn, List.splitOn_intercalate '/' h hne]

theorem pieces_slash (cs : List Char) : pieces ('/' :: cs) = [] :: pieces cs := by
  simp [pieces]

/-- Nothing is trimmed when something stands after the last slash. -/
theorem split_eq_pieces {cs : List Char} (h : (pieces cs).getLast? ≠ some []) :
    split cs = pieces cs := by
  unfold split
  split_ifs with hmem
  · obtain ⟨ps, p, hp⟩ := List.eq_nil_or_concat' (pieces cs) |>.resolve_left (pieces_ne_nil cs)
    have hlast : p ≠ [] := by
      rintro rfl
      simp [hp] at h
    simp [hp, hlast]
  · rw [pieces_eq_splitOn, List.splitOn_eq_singleton hmem]

theorem split_slash {cs : List Char} (h : (pieces cs).getLast? ≠ some []) :
    split ('/' :: cs) = [] :: split cs := by
  have hlast : (pieces ('/' :: cs)).getLast? ≠ some [] := by
    rw [pieces_slash, List.getLast?_cons_of_ne_nil (pieces_ne_nil cs)]
    exact h
  rw [split_eq_pieces hlast, split_eq_pieces h, pieces_slash]

/-- Every element ends in a slash, the last of which is deleted. -/
theorem dropLast_flatMap_slash {stack : List (List Char)} (hne : stack ≠ []) :
    (stack.flatMap fun it => it ++ ['/']).dropLast = joined stack := by
  induction stack with
  | nil => exact absurd rfl hne
  | cons s stack ih =>
    cases stack with
    | nil => simp [joined]
    | cons t stack =>
      have htail : ((t :: stack).flatMap fun it => it ++ ['/']) ≠ [] := by simp
      rw [List.flatMap_cons, List.dropLast_append_of_ne_nil htail, ih (List.cons_ne_nil _ _), joined,
        joined, List.intercalate_cons_cons]

/-! ## The loop and the builder -/

/-- `tmp.equals("..")`. -/
def isUp (tmp : List Char) : Bool := tmp = ['.', '.']

/-- How many `..` stand at the front. -/
def ups (pathStack : List (List Char)) : Nat := (pathStack.takeWhile isUp).length

/-- The loop takes one segment off each stack for each leading `..`. -/
theorem climb_eq (parentStack pathStack : List (List Char)) :
    climb parentStack pathStack =
      if ups pathStack ≤ parentStack.length then
        .ok (parentStack.take (parentStack.length - ups pathStack), pathStack.dropWhile isUp)
      else .error .remove := by
  induction pathStack generalizing parentStack with
  | nil => simp [climb, ups]
  | cons tmp pathStack ih =>
    by_cases htmp : tmp = ['.', '.']
    · have hup : isUp tmp = true := by simp [isUp, htmp]
      have hups : ups (tmp :: pathStack) = ups pathStack + 1 := by
        rw [ups, List.takeWhile_cons_of_pos hup, List.length_cons, ups]
      rw [climb, if_pos htmp, hups, List.dropWhile_cons_of_pos hup]
      cases parentStack with
      | nil => simp
      | cons p ps =>
        rw [if_neg (by simp), ih, List.length_dropLast, List.dropLast_eq_take, List.take_take]
        simp only [List.length_cons, Nat.add_sub_cancel, Nat.add_le_add_iff_right,
          Nat.add_sub_add_right]
        rw [Nat.min_eq_left (Nat.sub_le _ _)]
    · have hup : isUp tmp = false := by simp [isUp, htmp]
      simp [climb, ups, htmp, hup]

theorem joinStacks_eq {absolute : Bool} {parentStack pathStack : List (List Char)}
    (hne : parentStack ++ pathStack ≠ []) :
    joinStacks absolute parentStack pathStack =
      .ok ((if absolute then ['/'] else []) ++ joined (parentStack ++ pathStack)) := by
  have hmap : ((parentStack ++ pathStack).flatMap fun it => it ++ ['/']) ≠ [] := by
    obtain ⟨s, stack, hs⟩ := List.exists_cons_of_ne_nil hne
    simp [hs]
  have hbuilder : ((if absolute then ['/'] else []) ++
      (parentStack ++ pathStack).flatMap fun it => it ++ ['/']).isEmpty = false :=
    List.isEmpty_eq_false_iff.2 (List.append_ne_nil_of_right_ne_nil _ hmap)
  rw [joinStacks]
  simp only [hbuilder, Bool.false_eq_true, if_false]
  rw [List.dropLast_append_of_ne_nil hmap, dropLast_flatMap_slash hne]

theorem joinStacks_ok_iff (absolute : Bool) (parentStack pathStack : List (List Char)) :
    (∃ r, joinStacks absolute parentStack pathStack = .ok r) ↔
      absolute = true ∨ parentStack ++ pathStack ≠ [] := by
  by_cases hne : parentStack ++ pathStack = []
  · cases absolute <;> simp [joinStacks, hne]
  · simp [joinStacks_eq hne, hne]

/-! ## Names that resolve -/

/-- Lines 18-21 and 28-31: what both names go through first. -/
def normalized (cs : List Char) : List Char := dropDotSlash (replaceSlashes cs)

/-- The base has a segment for each `..`, and something is left to append. -/
def Climbs (moduleBaseName moduleName : List Char) : Prop :=
  ups (split moduleName) ≤ (split moduleBaseName).length ∧
    (moduleBaseName.head? = some '/' ∨ ups (split moduleName) + 2 ≤ (split moduleBaseName).length ∨
      ups (split moduleName) < (split moduleName).length)

theorem resolve_ok_iff (moduleBaseName moduleName : List Char) :
    (∃ r, resolve moduleBaseName moduleName = .ok r) ↔
      moduleBaseName.getLast? = some '/' ∨ Climbs moduleBaseName moduleName := by
  by_cases hroot : moduleBaseName = ['/']
  · simp [resolve, hroot]
  by_cases hslash : moduleBaseName.getLast? = some '/'
  · simp [resolve, hslash, hroot]
  rw [resolve, if_neg hroot, if_neg hslash, climb_eq]
  by_cases hups : ups (split moduleName) ≤ (split moduleBaseName).length
  · -- what is left of either stack, counted
    have hparent : ((split moduleBaseName).take
        ((split moduleBaseName).length - ups (split moduleName))).dropLast ≠ [] ↔
          ups (split moduleName) + 2 ≤ (split moduleBaseName).length := by
      rw [← List.length_pos_iff, List.length_dropLast, List.length_take]
      omega
    have hpath : (split moduleName).dropWhile isUp ≠ [] ↔
        ups (split moduleName) < (split moduleName).length := by
      have hlen : ((split moduleName).takeWhile isUp ++ (split moduleName).dropWhile isUp).length =
          (split moduleName).length := by rw [List.takeWhile_append_dropWhile]
      rw [List.length_append] at hlen
      rw [← List.length_pos_iff, ups]
      omega
    rw [if_pos hups]
    simp only [joinStacks_ok_iff, Climbs, hslash, false_or, hups, true_and, decide_eq_true_eq]
    rw [ne_eq, List.append_eq_nil_iff, not_and_or, ← ne_eq, ← ne_eq, ← hpath, ← hparent]
  · rw [if_neg hups]
    simp [Climbs, hslash, hups]

theorem replaceSlashes_cons_of_ne {c : Char} (hc : c ≠ '/') (cs : List Char) :
    replaceSlashes (c :: cs) = c :: replaceSlashes cs := by
  rw [replaceSlashes]
  exact fun _ h _ => hc h

theorem replaceSlashes_slash {cs : List Char} (h : cs.head? ≠ some '/') :
    replaceSlashes ('/' :: cs) = '/' :: replaceSlashes cs := by
  rw [replaceSlashes]
  rintro ds - rfl
  exact h rfl

theorem replaceSlashes_eq_nil_iff {cs : List Char} : replaceSlashes cs = [] ↔ cs = [] := by
  fun_cases replaceSlashes cs <;> simp

theorem replaceSlashes_eq_slash_iff {cs : List Char} :
    replaceSlashes cs = ['/'] ↔ cs = ['/'] ∨ cs = ['/', '/'] := by
  fun_cases replaceSlashes cs with
  | case1 cs => simp [replaceSlashes_eq_nil_iff]
  | case2 c cs h =>
    have hne : ¬ (c = '/' ∧ cs = ['/']) := fun hc => h [] hc.1 hc.2
    simp [replaceSlashes_eq_nil_iff, or_iff_left hne]
  | case3 => simp

/-- The names that are nothing but `./`. -/
theorem normalized_eq_nil_iff {cs : List Char} :
    normalized cs = [] ↔ cs = [] ∨ cs = ['.', '/'] ∨ cs = ['.', '/', '/'] := by
  have hdrop : ∀ ds, dropDotSlash ds = [] ↔ ds = [] ∨ ds = ['.', '/'] := by
    intro ds
    rcases ds with _ | ⟨c, _ | ⟨d, ds⟩⟩
    · simp [dropDotSlash]
    · simp [dropDotSlash]
    · fun_cases dropDotSlash (c :: d :: ds) <;> simp_all
  rw [normalized, hdrop, replaceSlashes_eq_nil_iff]
  refine or_congr_right ?_
  fun_cases replaceSlashes cs with
  | case1 cs => simp
  | case2 c cs h =>
    simp only [List.cons.injEq, replaceSlashes_eq_slash_iff]
    tauto
  | case3 => simp

theorem convert_eq (moduleBaseName : Option (List Char)) (moduleName : List Char) :
    convert moduleBaseName moduleName =
      match normalized moduleName with
      | [] => .error .charAt
      | c :: _ =>
        if c = '/' then .ok (normalized moduleName)
        else
          match moduleBaseName with
          | none | some [] => .ok (normalized moduleName)
          | some base => resolve (normalized base) (normalized moduleName) := rfl

theorem convert_eq_resolve {base moduleName : List Char} (hname : normalized moduleName ≠ [])
    (hhead : (normalized moduleName).head? ≠ some '/') (hbase : base ≠ []) :
    convert (some base) moduleName = resolve (normalized base) (normalized moduleName) := by
  rw [convert_eq]
  obtain ⟨c, cs, hc⟩ := List.exists_cons_of_ne_nil hname
  obtain ⟨b, bs, rfl⟩ := List.exists_cons_of_ne_nil hbase
  rw [hc] at hhead ⊢
  simp only [List.head?_cons, ne_eq, Option.some.injEq] at hhead
  simp only [if_neg hhead]

theorem convert_ok_iff (moduleBaseName : Option (List Char)) (moduleName : List Char) :
    (∃ r, convert moduleBaseName moduleName = .ok r) ↔
      normalized moduleName ≠ [] ∧ ((normalized moduleName).head? = some '/' ∨
        ∀ base ∈ moduleBaseName, base ≠ [] → (normalized base).getLast? = some '/' ∨
          Climbs (normalized base) (normalized moduleName)) := by
  rw [convert_eq]
  cases hm : normalized moduleName with
  | nil => simp
  | cons c cs =>
    by_cases hc : c = '/'
    · simp [hc]
    · cases moduleBaseName with
      | none => simp [hc]
      | some base =>
        cases base with
        | nil => simp [hc]
        | cons b bs => simp [hc, resolve_ok_iff]

/-! ## Names made of segments -/

/-- Neither empty nor with a slash in it. -/
def Plain (segment : List Char) : Prop := segment ≠ [] ∧ '/' ∉ segment

theorem joined_cons (s : List Char) {segments : List (List Char)} (hne : segments ≠ []) :
    joined (s :: segments) = s ++ '/' :: joined segments := by
  rw [joined, List.intercalate_cons_of_ne_nil hne, List.append_assoc]
  rfl

theorem head?_joined {segments : List (List Char)} (h : ∀ s ∈ segments, Plain s) :
    (joined segments).head? ≠ some '/' := by
  cases segments with
  | nil => simp [joined]
  | cons s segments =>
    have hs : s.head? ≠ some '/' := fun hh => (h s List.mem_cons_self).2 (List.mem_of_head? hh)
    by_cases hne : segments = []
    · simpa [hne, joined] using hs
    · rw [joined_cons s hne, List.head?_append_of_ne_nil _ (h s List.mem_cons_self).1]
      exact hs

theorem joined_ne_nil {segments : List (List Char)} (h : ∀ s ∈ segments, Plain s)
    (hne : segments ≠ []) : joined segments ≠ [] := by
  cases segments with
  | nil => exact absurd rfl hne
  | cons s segments =>
    by_cases hnil : segments = []
    · simpa [hnil, joined] using (h s List.mem_cons_self).1
    · simp [joined_cons s hnil]

theorem getLast?_joined {segments : List (List Char)} (h : ∀ s ∈ segments, Plain s)
    (hne : segments ≠ []) : (joined segments).getLast? ≠ some '/' := by
  induction segments with
  | nil => exact absurd rfl hne
  | cons s segments ih =>
    obtain ⟨hs, hrest⟩ := List.forall_mem_cons.1 h
    by_cases hnil : segments = []
    · rw [hnil, joined, List.intercalate_singleton]
      exact fun hlast => hs.2 (List.mem_of_getLast? hlast)
    · rw [joined_cons s hnil, List.getLast?_append_of_ne_nil _ (List.cons_ne_nil _ _),
        List.getLast?_cons_of_ne_nil (joined_ne_nil hrest hnil)]
      exact ih hrest hnil

theorem replaceSlashes_append {s : List Char} (hs : '/' ∉ s) (rest : List Char) :
    replaceSlashes (s ++ rest) = s ++ replaceSlashes rest := by
  induction s with
  | nil => rfl
  | cons c s ih =>
    rw [List.mem_cons, not_or] at hs
    obtain ⟨hc, hs⟩ := hs
    rw [List.cons_append, replaceSlashes_cons_of_ne (Ne.symm hc), ih hs, List.cons_append]

theorem replaceSlashes_joined {segments : List (List Char)} (h : ∀ s ∈ segments, Plain s) :
    replaceSlashes (joined segments) = joined segments := by
  induction segments with
  | nil => rfl
  | cons s segments ih =>
    obtain ⟨hs, hrest⟩ := List.forall_mem_cons.1 h
    by_cases hnil : segments = []
    · have happend := replaceSlashes_append hs.2 []
      rw [List.append_nil, replaceSlashes, List.append_nil] at happend
      rwa [hnil, joined, List.intercalate_singleton]
    · rw [joined_cons s hnil, replaceSlashes_append hs.2, replaceSlashes_slash (head?_joined hrest),
        ih hrest]

/-- A first segment other than `.` is not taken for `./`. -/
theorem dropDotSlash_joined {segments : List (List Char)} (h : ∀ s ∈ segments, Plain s)
    (hdot : segments.head? ≠ some ['.']) : dropDotSlash (joined segments) = joined segments := by
  by_cases hnil : segments = []
  · subst hnil
    rfl
  have hpieces : pieces (joined segments) = segments := pieces_joined (fun s hs => (h s hs).2) hnil
  unfold dropDotSlash
  split
  · next rest heq =>
    have hhead : pieces ('.' :: '/' :: rest) = ['.'] :: pieces rest := by simp [pieces]
    rw [← heq, hpieces] at hhead
    exact absurd (by rw [hhead, List.head?_cons]) hdot
  · rfl

/-- What `absolute` adds in front. -/
def root (absolute : Bool) : List Char := if absolute then ['/'] else []

theorem normalized_joined {segments : List (List Char)} (h : ∀ s ∈ segments, Plain s)
    (hdot : segments.head? ≠ some ['.']) (absolute : Bool) :
    normalized (root absolute ++ joined segments) = root absolute ++ joined segments := by
  cases absolute with
  | false => exact (congrArg dropDotSlash (replaceSlashes_joined h)).trans (dropDotSlash_joined h hdot)
  | true =>
    change dropDotSlash (replaceSlashes ('/' :: joined segments)) = '/' :: joined segments
    rw [replaceSlashes_slash (head?_joined h), replaceSlashes_joined h]
    rfl

theorem normalized_dotSlash {segments : List (List Char)} (h : ∀ s ∈ segments, Plain s) :
    normalized ('.' :: '/' :: joined segments) = joined segments := by
  rw [normalized, replaceSlashes_cons_of_ne (by decide), replaceSlashes_slash (head?_joined h),
    replaceSlashes_joined h]
  rfl

theorem split_joined {segments : List (List Char)} (h : ∀ s ∈ segments, Plain s)
    (hne : segments ≠ []) (absolute : Bool) :
    split (root absolute ++ joined segments) = (if absolute then [[]] else []) ++ segments := by
  have hpieces : pieces (joined segments) = segments := pieces_joined (fun s hs => (h s hs).2) hne
  have hlast : (pieces (joined segments)).getLast? ≠ some [] := by
    rw [hpieces]
    exact fun hnil => (h [] (List.mem_of_getLast? hnil)).1 rfl
  cases absolute with
  | false => rw [root, if_neg (by decide), List.nil_append, split_eq_pieces hlast, hpieces]; rfl
  | true =>
    rw [root, if_pos rfl, List.singleton_append, split_slash hlast, split_eq_pieces hlast, hpieces]
    rfl

theorem ups_append {names : List (List Char)} (k : Nat) (h : names.head? ≠ some ['.', '.']) :
    ups (List.replicate k ['.', '.'] ++ names) = k ∧
      (List.replicate k ['.', '.'] ++ names).dropWhile isUp = names := by
  have hnames : names.takeWhile isUp = [] ∧ names.dropWhile isUp = names := by
    cases names with
    | nil => simp
    | cons n names =>
      have hn : isUp n = false := by simpa [isUp] using h
      simp [hn]
  have hall : ∀ s ∈ List.replicate k ['.', '.'], isUp s = true := fun s hs => by
    rw [List.eq_of_mem_replicate hs]
    rfl
  rw [ups, List.takeWhile_append_of_pos hall, List.dropWhile_append_of_pos hall, hnames.1, hnames.2]
  simp

/-- Popped once for each `..` and once more, the stack of the base keeps its front. -/
theorem dropLast_take_append {α : Type} (front segments : List α) {k : Nat} (hk : k < segments.length) :
    ((front ++ segments).take ((front ++ segments).length - k)).dropLast =
      front ++ segments.take (segments.length - 1 - k) := by
  have hlen : min ((front ++ segments).length - k) (front ++ segments).length - 1 =
      front.length + (segments.length - 1 - k) := by
    rw [List.length_append]
    omega
  rw [List.dropLast_eq_take, List.length_take, List.take_take, hlen,
    Nat.min_eq_left (by rw [List.length_append]; omega), List.take_append,
    List.take_of_length_le (Nat.le_add_right _ _), Nat.add_sub_cancel_left]

theorem joined_root (absolute : Bool) {segments : List (List Char)} (hne : segments ≠ []) :
    joined ((if absolute then [[]] else []) ++ segments) = root absolute ++ joined segments := by
  cases absolute with
  | false => rfl
  | true => exact joined_cons [] hne

theorem plain_replicate (k : Nat) : ∀ s ∈ List.replicate k ['.', '.'], Plain s := fun s hs => by
  rw [List.eq_of_mem_replicate hs]
  exact ⟨by decide, by decide⟩

theorem plain_ups (k : Nat) {names : List (List Char)} (hn : ∀ s ∈ names, Plain s) :
    ∀ s ∈ List.replicate k ['.', '.'] ++ names, Plain s :=
  List.forall_mem_append.2 ⟨plain_replicate k, hn⟩

/-- Of an absolute base the slash comes twice, from the prefix and from the empty first segment. -/
theorem resolve_joined {segments names : List (List Char)} {k : Nat} (absolute : Bool)
    (hs : ∀ s ∈ segments, Plain s) (hn : ∀ s ∈ names, Plain s)
    (hup : names.head? ≠ some ['.', '.']) (hne : names ≠ []) (hk : k < segments.length) :
    resolve (root absolute ++ joined segments) (joined (List.replicate k ['.', '.'] ++ names)) =
      .ok (root absolute ++ (root absolute ++
        joined (segments.take (segments.length - 1 - k) ++ names))) := by
  have hsne : segments ≠ [] := List.ne_nil_of_length_pos (Nat.zero_lt_of_lt hk)
  have hjne : joined segments ≠ [] := joined_ne_nil hs hsne
  have hroot : root absolute ++ joined segments ≠ ['/'] := by
    cases absolute with
    | false => exact fun h => head?_joined hs (congrArg List.head? h)
    | true => exact fun h => hjne (List.cons.inj h).2
  have hlast : (root absolute ++ joined segments).getLast? ≠ some '/' := by
    rw [List.getLast?_append_of_ne_nil _ hjne]
    exact getLast?_joined hs hsne
  have hhead : decide ((root absolute ++ joined segments).head? = some '/') = absolute := by
    cases absolute with
    | false => exact decide_eq_false (head?_joined hs)
    | true => exact decide_eq_true rfl
  have hpath : split (joined (List.replicate k ['.', '.'] ++ names)) =
      List.replicate k ['.', '.'] ++ names :=
    split_joined (plain_ups k hn) (List.append_ne_nil_of_right_ne_nil _ hne) false
  have hclimb : k ≤ ((if absolute then [[]] else []) ++ segments).length := by
    rw [List.length_append]
    omega
  have htake := dropLast_take_append (if absolute then [[]] else []) segments hk
  have hleft : segments.take (segments.length - 1 - k) ++ names ≠ [] :=
    List.append_ne_nil_of_right_ne_nil _ hne
  rw [resolve, if_neg hroot, if_neg hlast, hpath, split_joined hs hsne, climb_eq,
    (ups_append k hup).1, (ups_append k hup).2, if_pos hclimb]
  simp only [hhead, htake]
  rw [joinStacks_eq (by simp [hne]), List.append_assoc, joined_root absolute hleft]
  rfl

end ModuleName

open ModuleName

/-- No name, or one that is more than `./` and is absolute, or a base to climb from. -/
def Resolvable (moduleBaseName moduleName : Name) : Prop :=
  ∀ name ∈ moduleName, name ≠ "" → name ≠ "./" ∧ name ≠ ".//" ∧
    ((normalized name.toList).head? = some '/' ∨ ∀ base ∈ moduleBaseName, base ≠ "" →
      (normalized base.toList).getLast? = some '/' ∨
        Climbs (normalized base.toList) (normalized name.toList))

theorem convertModuleName_some {name : String} (hname : name ≠ "") (moduleBaseName : Name) :
    convertModuleName moduleBaseName (some name) =
      match convert (moduleBaseName.map String.toList) name.toList with
      | .error e => .error e
      | .ok cs => .ok (some (String.ofList cs)) := by
  have hne : name.toList.isEmpty = false := by
    rw [List.isEmpty_eq_false_iff, ne_eq, String.toList_eq_nil_iff]
    exact hname
  rw [convertModuleName, hne]
  rfl

/-- **No index is out of bounds** if and only if the name can be resolved. -/
theorem convertModuleName_returns_iff (moduleBaseName moduleName : Name) :
    (∃ result, convertModuleName moduleBaseName moduleName = .ok result) ↔
      Resolvable moduleBaseName moduleName := by
  cases moduleName with
  | none => simp [convertModuleName, Resolvable]
  | some name =>
    by_cases hname : name = ""
    · subst hname
      simp [convertModuleName, Resolvable]
    have hok : (∃ result, convertModuleName moduleBaseName (some name) = .ok result) ↔
        ∃ cs, convert (moduleBaseName.map String.toList) name.toList = .ok cs := by
      rw [convertModuleName_some hname]
      cases convert (moduleBaseName.map String.toList) name.toList <;> simp
    have hnil : normalized name.toList ≠ [] ↔ name ≠ "./" ∧ name ≠ ".//" := by
      have hdot : ['.', '/'] = "./".toList := rfl
      have hdouble : ['.', '/', '/'] = ".//".toList := rfl
      rw [ne_eq, normalized_eq_nil_iff, String.toList_eq_nil_iff, or_iff_right hname, not_or, hdot,
        hdouble, String.toList_inj, String.toList_inj]
    rw [hok, convert_ok_iff, hnil, Resolvable]
    simp [hname, and_assoc]

/-- **Names that climb past the root, or shrink to nothing, are not resolved.** -/
theorem unresolved : ¬ ∀ moduleBaseName moduleName : Name,
    ∃ result, convertModuleName moduleBaseName moduleName = .ok result := by
  intro h
  obtain ⟨result, hresult⟩ := h (some "main.js") (some "../../lib.js")
  have herror : convertModuleName (some "main.js") (some "../../lib.js") = .error .remove := by
    decide
  rw [herror] at hresult
  exact absurd hresult (by simp)

/-- The other two calls. -/
example : convertModuleName (some "main.js") (some "./") = .error .charAt ∧
    convertModuleName (some "main.js") (some "..") = .error .deleteCharAt := by decide

/-! ## Relative names -/

structure Ordinary (segment : String) : Prop where
  nonempty : segment ≠ ""
  noSlash : '/' ∉ segment.toList
  notDot : segment ≠ "."
  notDotDot : segment ≠ ".."

instance : DecidablePred Ordinary := fun segment =>
  decidable_of_iff (segment ≠ "" ∧ '/' ∉ segment.toList ∧ segment ≠ "." ∧ segment ≠ "..")
    ⟨fun ⟨hne, hslash, hdot, hup⟩ => ⟨hne, hslash, hdot, hup⟩,
      fun h => ⟨h.nonempty, h.noSlash, h.notDot, h.notDotDot⟩⟩

/-- What may stand before the segments of a base. -/
inductive Start | relative | dotSlash | absolute
  deriving DecidableEq, Repr

def Start.text : Start → String
  | relative => "" | dotSlash => "./" | absolute => "/"

def baseName (start : Start) (segments : List String) : String :=
  start.text ++ "/".intercalate segments

def relativeName (dotSlash : Bool) (k : Nat) (names : List String) : String :=
  (if dotSlash then "./" else "") ++ "/".intercalate (List.replicate k ".." ++ names)

/-- The path that is meant. -/
def resolvedName (start : Start) (segments : List String) (k : Nat) (names : List String) : String :=
  (if start = .absolute then "/" else "") ++
    "/".intercalate (segments.take (segments.length - 1 - k) ++ names)

theorem plain_of_ordinary {segments : List String} (h : ∀ s ∈ segments, Ordinary s) :
    ∀ s ∈ segments.map String.toList, Plain s := by
  intro s hs
  obtain ⟨t, ht, rfl⟩ := List.mem_map.1 hs
  exact ⟨fun hnil => (h t ht).nonempty (String.toList_eq_nil_iff.1 hnil), (h t ht).noSlash⟩

theorem head?_ne_of_ordinary {segments : List String} (h : ∀ s ∈ segments, Ordinary s) (text : String)
    (htext : ∀ s, Ordinary s → s ≠ text) :
    (segments.map String.toList).head? ≠ some text.toList := by
  intro hhead
  obtain ⟨t, ht, heq⟩ := List.mem_map.1 (List.mem_of_head? hhead)
  exact htext t (h t ht) (String.toList_inj.1 heq)

theorem toList_joined (segments : List String) :
    ("/".intercalate segments).toList = joined (segments.map String.toList) :=
  String.toList_intercalate

/-- The base, whichever way it starts. -/
theorem normalized_baseName (start : Start) {segments : List String}
    (hs : ∀ s ∈ segments, Ordinary s) :
    normalized (baseName start segments).toList =
      root (start = .absolute) ++ joined (segments.map String.toList) := by
  have hplain := plain_of_ordinary hs
  have hdot := head?_ne_of_ordinary hs "." fun _ h => h.notDot
  rw [baseName, String.toList_append, toList_joined]
  cases start with
  | relative => exact normalized_joined hplain hdot false
  | dotSlash => exact normalized_dotSlash hplain
  | absolute => exact normalized_joined hplain hdot true

theorem normalized_relativeName (dotSlash : Bool) (k : Nat) {names : List String}
    (hn : ∀ s ∈ names, Ordinary s) :
    normalized (relativeName dotSlash k names).toList =
      joined (List.replicate k ['.', '.'] ++ names.map String.toList) := by
  have hplain := plain_ups k (plain_of_ordinary hn)
  have hdot : (List.replicate k ['.', '.'] ++ names.map String.toList).head? ≠ some ['.'] := by
    cases k with
    | zero => exact head?_ne_of_ordinary hn "." fun _ h => h.notDot
    | succ k => simp [List.replicate_succ]
  rw [relativeName, String.toList_append, toList_joined, List.map_append, List.map_replicate]
  cases dotSlash with
  | false => exact normalized_joined hplain hdot false
  | true => exact normalized_dotSlash hplain

/-- Of an absolute base the result begins with two slashes. -/
theorem convertModuleName_relative (start : Start) {segments names : List String} (dotSlash : Bool)
    {k : Nat} (hs : ∀ s ∈ segments, Ordinary s) (hn : ∀ s ∈ names, Ordinary s) (hne : names ≠ [])
    (hk : k < segments.length) :
    convertModuleName (some (baseName start segments)) (some (relativeName dotSlash k names)) =
      .ok (some ((if start = .absolute then "/" else "") ++ resolvedName start segments k names)) := by
  have hsplain := plain_of_ordinary hs
  have hnplain := plain_of_ordinary hn
  have hupplain := plain_ups k hnplain
  have hnmap : names.map String.toList ≠ [] := by simpa using hne
  have hjoined : joined (List.replicate k ['.', '.'] ++ names.map String.toList) ≠ [] :=
    joined_ne_nil hupplain (List.append_ne_nil_of_right_ne_nil _ hnmap)
  have hsmap : segments.map String.toList ≠ [] := by
    simpa using List.ne_nil_of_length_pos (Nat.zero_lt_of_lt hk)
  have hname : (relativeName dotSlash k names).toList ≠ [] := by
    rw [relativeName, String.toList_append, toList_joined, List.map_append, List.map_replicate]
    exact List.append_ne_nil_of_right_ne_nil _ hjoined
  have hbase : (baseName start segments).toList ≠ [] := by
    rw [baseName, String.toList_append, toList_joined]
    exact List.append_ne_nil_of_right_ne_nil _ (joined_ne_nil hsplain hsmap)
  have hconvert : convert (some (baseName start segments).toList)
      (relativeName dotSlash k names).toList =
        .ok (root (start = .absolute) ++ (root (start = .absolute) ++
          joined ((segments.take (segments.length - 1 - k) ++ names).map String.toList))) := by
    have hresolve := resolve_joined (k := k) (start = .absolute) hsplain hnplain
      (head?_ne_of_ordinary hn ".." fun _ h => h.notDotDot) hnmap (by simpa using hk)
    rw [convert_eq_resolve _ _ hbase, normalized_baseName start hs, normalized_relativeName dotSlash k hn,
      hresolve, List.length_map, List.map_append, List.map_take]
    · rw [normalized_relativeName dotSlash k hn]
      exact hjoined
    · rw [normalized_relativeName dotSlash k hn]
      exact head?_joined hupplain
  have hroot : (if start = .absolute then "/" else "").toList = root (start = .absolute) := by
    cases start <;> rfl
  rw [convertModuleName_some (fun h => hname (by rw [h]; rfl)), Option.map_some, hconvert]
  simp only [Except.ok.injEq, Option.some.injEq]
  rw [← String.toList_inj, String.toList_ofList, String.toList_append, resolvedName,
    String.toList_append, toList_joined, hroot]

/-- **A relative name gives the path that is meant** if and only if the base is not absolute. -/
theorem convertModuleName_relative_iff (start : Start) {segments names : List String}
    (dotSlash : Bool) {k : Nat} (hs : ∀ s ∈ segments, Ordinary s) (hn : ∀ s ∈ names, Ordinary s)
    (hne : names ≠ []) (hk : k < segments.length) :
    convertModuleName (some (baseName start segments)) (some (relativeName dotSlash k names)) =
      .ok (some (resolvedName start segments k names)) ↔ start ≠ .absolute := by
  rw [convertModuleName_relative start dotSlash hs hn hne hk, Except.ok.injEq, Option.some.injEq]
  by_cases hstart : start = .absolute
  · refine iff_of_false (fun h => ?_) (not_not.2 hstart)
    have hlen := congrArg String.length h
    rw [if_pos hstart, String.length_append] at hlen
    have hone : "/".length = 1 := rfl
    omega
  · simp [hstart]

/-- `./../util.js` seen from `lib/net/main.js`. -/
theorem convertModuleName_relative_iff_up :
    convertModuleName (some (baseName .relative ["lib", "net", "main.js"]))
        (some (relativeName true 1 ["util.js"])) =
      .ok (some (resolvedName .relative ["lib", "net", "main.js"] 1 ["util.js"])) ↔
      Start.relative ≠ .absolute :=
  convertModuleName_relative_iff .relative true (by decide) (by decide) (by decide) (by decide)

example : convertModuleName (some "lib/net/main.js") (some "./../util.js") = .ok (some "lib/util.js") := by
  decide

/-- **Two slashes.** -/
theorem root_doubled : ¬ ∀ (start : Start) (segments names : List String) (dotSlash : Bool) (k : Nat),
    (∀ s ∈ segments, Ordinary s) → (∀ s ∈ names, Ordinary s) → names ≠ [] → k < segments.length →
      convertModuleName (some (baseName start segments)) (some (relativeName dotSlash k names)) =
        .ok (some (resolvedName start segments k names)) := by
  intro h
  have hrun : convertModuleName (some (baseName .absolute ["app", "main.js"]))
      (some (relativeName true 0 ["util.js"])) = .ok (some "//app/util.js") := by decide
  have hmeant := h .absolute ["app", "main.js"] ["util.js"] true 0 (by decide) (by decide)
    (by decide) (by decide)
  rw [hrun] at hmeant
  exact absurd hmeant (by decide)

end HybridStack.QuickJs
