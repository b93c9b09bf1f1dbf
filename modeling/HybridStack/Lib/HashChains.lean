import Mathlib.Data.List.Nodup
import Mathlib.Data.List.Perm.Subperm
import Mathlib.Logic.Function.Basic

/-!
# Hash tables with the links in the entries

The entries are numbered from 1; `next` is the field of an entry that links it to the next one of its
chain, and 0 ends a chain. A table has the head of a chain for each residue of the keys.
`Table.Holds t key In` says that its chains are made of the entries that are `In`, each once and in
the chain of its key. The rules:

- `Holds.search`: what a search along the chain of a key finds.
- `Holds.insert`, `Holds.remove`: an entry is linked in front of its chain, or unlinked.
- `Holds.resize`: all entries are relinked, in place, for another number of chains.

The loops take fuel; a number above all entries is enough.
-/

namespace HashChains

/-! ## Chains -/

def Chain (next : Nat → Nat) : Nat → List Nat → Prop
  | i, [] => i = 0
  | i, j :: l => i = j ∧ i ≠ 0 ∧ Chain next (next i) l

variable {next next' : Nat → Nat} {i : Nat} {l : List Nat}

theorem Chain.ne_zero (h : Chain next i l) : ∀ j ∈ l, j ≠ 0 := by
  induction l generalizing i with
  | nil => exact fun j hj => absurd hj List.not_mem_nil
  | cons k l ih =>
    obtain ⟨rfl, h0, h⟩ := h
    intro j hj
    rcases List.mem_cons.1 hj with rfl | hj
    · exact h0
    · exact ih h j hj

/-- Only the links of the entries of a chain matter to it. -/
theorem Chain.congr (h : Chain next i l) (hsame : ∀ j ∈ l, next' j = next j) : Chain next' i l := by
  induction l generalizing i with
  | nil => exact h
  | cons k l ih =>
    obtain ⟨rfl, h0, h⟩ := h
    refine ⟨rfl, h0, ?_⟩
    rw [hsame i List.mem_cons_self]
    exact ih h fun j hj => hsame j (List.mem_cons_of_mem _ hj)

theorem Chain.update (h : Chain next i l) {j : Nat} (hj : j ∉ l) (v : Nat) :
    Chain (Function.update next j v) i l := by
  apply h.congr
  intro k hk
  apply Function.update_of_ne
  rintro rfl
  exact hj hk

theorem Chain.cons (h : Chain next i l) {j : Nat} (h0 : j ≠ 0) (hj : j ∉ l) :
    Chain (Function.update next j i) j (j :: l) := by
  refine ⟨rfl, h0, ?_⟩
  rw [Function.update_self]
  exact h.update hj i

theorem length_le_of_lt {n : Nat} (hnodup : l.Nodup) (hlt : ∀ j ∈ l, j < n) : l.length ≤ n := by
  have hsub : l ⊆ List.range n := fun j hj => List.mem_range.2 (hlt j hj)
  have hle := (hnodup.subperm hsub).length_le
  rw [List.length_range] at hle
  exact hle

/-- The first entry that meets the test, or 0. -/
def search (next : Nat → Nat) (test : Nat → Bool) : Nat → Nat → Nat
  | 0, _ => 0
  | fuel + 1, i => if i = 0 then 0 else if test i then i else search next test fuel (next i)

theorem Chain.search_eq (h : Chain next i l) (test : Nat → Bool) {fuel : Nat}
    (hfuel : l.length ≤ fuel) : search next test fuel i = (l.find? test).getD 0 := by
  induction l generalizing i fuel with
  | nil =>
    obtain rfl : i = 0 := h
    cases fuel with
    | zero => rfl
    | succ fuel => rfl
  | cons j l ih =>
    obtain ⟨rfl, h0, h⟩ := h
    rw [List.length_cons] at hfuel
    cases fuel with
    | zero => omega
    | succ fuel =>
      rw [search, if_neg h0]
      by_cases ht : test i = true
      · rw [if_pos ht, List.find?_cons_of_pos ht]
        rfl
      · rw [if_neg ht, List.find?_cons_of_neg ht]
        exact ih h (by omega)

/-- The link to `p` is made to pass it over, from `p0` on. -/
def unlink (next : Nat → Nat) (p : Nat) : Nat → Nat → Nat → Nat
  | 0, _ => next
  | fuel + 1, p0 =>
    if next p0 = p then Function.update next p0 (next p) else unlink next p fuel (next p0)

/-- Only the entries before `p` can be touched. -/
theorem Chain.unlink {p : Nat} (h : Chain next i l) (hnodup : l.Nodup) (hp : p ∈ l) (hne : i ≠ p)
    {fuel : Nat} (hfuel : l.length ≤ fuel) :
    Chain (unlink next p fuel i) i (l.erase p) ∧ ∀ j ∉ l, HashChains.unlink next p fuel i j = next j := by
  induction l generalizing i fuel with
  | nil => exact absurd hp List.not_mem_nil
  | cons k l ih =>
    obtain ⟨rfl, h0, h⟩ := h
    rw [List.length_cons] at hfuel
    obtain ⟨hi, hnodup⟩ := List.nodup_cons.1 hnodup
    have hpl : p ∈ l := (List.mem_cons.1 hp).resolve_left hne.symm
    rw [List.erase_cons_tail (by simpa using hne)]
    cases fuel with
    | zero => omega
    | succ fuel =>
      rw [HashChains.unlink]
      split
      next hnext =>
        cases l with
        | nil => exact absurd hpl List.not_mem_nil
        | cons q l =>
          obtain ⟨hq, hq0, hrest⟩ := h
          obtain rfl : q = p := hq.symm.trans hnext
          rw [List.erase_cons_head]
          rw [hnext] at hrest
          have hil : i ∉ l := fun hmem => hi (List.mem_cons_of_mem _ hmem)
          refine ⟨⟨rfl, h0, ?_⟩, ?_⟩
          · rw [Function.update_self]
            exact hrest.update hil _
          · intro j hj
            apply Function.update_of_ne
            rintro rfl
            exact hj List.mem_cons_self
      next hnext =>
        obtain ⟨hchain, hframe⟩ := ih h hnodup hpl hnext (Nat.le_of_succ_le_succ hfuel)
        refine ⟨⟨rfl, h0, ?_⟩, ?_⟩
        · rw [hframe i hi]
          exact hchain
        · intro j hj
          exact hframe j fun hmem => hj (List.mem_cons_of_mem _ hmem)

/-! ## Tables -/

structure Table where
  heads : List Nat
  next : Nat → Nat

namespace Table

/-- The head of the chain `b`. -/
def head (t : Table) (b : Nat) : Nat := t.heads.getD b 0

def insert (t : Table) (b i : Nat) : Table where
  heads := t.heads.set b i
  next := Function.update t.next i (t.head b)

def remove (t : Table) (fuel b p : Nat) : Table :=
  if t.head b = p then { t with heads := t.heads.set b (t.next p) }
  else { t with next := unlink t.next p fuel (t.head b) }

/-- The entries from `h` on are linked into `t`, which may have the same links. -/
def moveChain (key : Nat → Nat) : Nat → Nat → Table → Table
  | 0, _, t => t
  | fuel + 1, h, t =>
    if h = 0 then t
    else moveChain key fuel (t.next h) (t.insert (key h % t.heads.length) h)

def resize (t : Table) (key : Nat → Nat) (fuel n : Nat) : Table :=
  (List.range t.heads.length).foldl (fun t' b => moveChain key fuel (t.head b) t')
    { heads := List.replicate n 0, next := t.next }

structure Holds (t : Table) (key : Nat → Nat) (In : Nat → Prop) : Prop where
  pos : 0 < t.heads.length
  chains : ∀ b < t.heads.length, ∃ l, Chain t.next (t.head b) l ∧ l.Nodup ∧
    ∀ i, i ∈ l ↔ In i ∧ key i % t.heads.length = b

variable {t : Table} {key key' : Nat → Nat} {In In' : Nat → Prop}

theorem head_set (t : Table) (b b' i : Nat) (next : Nat → Nat) (hb : b < t.heads.length) :
    head { heads := t.heads.set b i, next } b' = if b = b' then i else t.head b' := by
  unfold head
  dsimp only
  rw [List.getD_eq_getElem?_getD, List.getD_eq_getElem?_getD, List.getElem?_set]
  by_cases h : b = b'
  · subst h
    rw [if_pos rfl, if_pos hb, if_pos rfl]
    rfl
  · rw [if_neg h, if_neg h]

/-- The chain of an entry. -/
theorem Holds.chain_of (h : t.Holds key In) (k : Nat) : ∃ l, Chain t.next (t.head (k % t.heads.length)) l ∧
    l.Nodup ∧ ∀ i, i ∈ l ↔ In i ∧ key i % t.heads.length = k % t.heads.length :=
  h.chains _ (Nat.mod_lt _ h.pos)

theorem Holds.ne_zero (h : t.Holds key In) {i : Nat} (hi : In i) : i ≠ 0 := by
  obtain ⟨l, hchain, -, hmem⟩ := h.chain_of (key i)
  exact hchain.ne_zero i ((hmem i).2 ⟨hi, rfl⟩)

theorem Holds.congr (h : t.Holds key In) (hin : ∀ i, In' i ↔ In i) (hkey : ∀ i, In i → key' i = key i) :
    t.Holds key' In' where
  pos := h.pos
  chains b hb := by
    obtain ⟨l, hchain, hnodup, hmem⟩ := h.chains b hb
    refine ⟨l, hchain, hnodup, ?_⟩
    intro i
    rw [hmem i, hin i]
    constructor
    · rintro ⟨hi, hk⟩
      exact ⟨hi, by rw [hkey i hi, hk]⟩
    · rintro ⟨hi, hk⟩
      exact ⟨hi, by rw [← hkey i hi, hk]⟩

/-- **Search**: it stops at an entry of the table that meets the test, or finds that none with that
key does. -/
theorem Holds.search (h : t.Holds key In) (test : Nat → Bool) (k : Nat) {fuel : Nat}
    (hfuel : ∀ i, In i → i < fuel) :
    (search t.next test fuel (t.head (k % t.heads.length)) = 0 ∧
        ∀ i, In i → key i % t.heads.length = k % t.heads.length → test i = false) ∨
      In (search t.next test fuel (t.head (k % t.heads.length))) ∧
        test (HashChains.search t.next test fuel (t.head (k % t.heads.length))) = true := by
  obtain ⟨l, hchain, hnodup, hmem⟩ := h.chain_of k
  have hlen := length_le_of_lt hnodup fun j hj => hfuel j ((hmem j).1 hj).1
  rw [hchain.search_eq test hlen]
  cases hfind : l.find? test with
  | none =>
    refine Or.inl ⟨rfl, ?_⟩
    intro i hi hk
    simpa using List.find?_eq_none.1 hfind i ((hmem i).2 ⟨hi, hk⟩)
  | some i =>
    refine Or.inr ⟨((hmem i).1 (List.mem_of_find?_eq_some hfind)).1, ?_⟩
    exact List.find?_some hfind

theorem Holds.insert (h : t.Holds key In) {i : Nat} (hi : ¬ In i) (h0 : i ≠ 0) :
    (t.insert (key i % t.heads.length) i).Holds key fun j => In j ∨ j = i where
  pos := by
    unfold Table.insert
    rw [List.length_set]
    exact h.pos
  chains b hb := by
    unfold Table.insert at hb ⊢
    dsimp only at hb ⊢
    rw [List.length_set] at hb ⊢
    rw [head_set t _ b i _ (Nat.mod_lt _ h.pos)]
    obtain ⟨l, hchain, hnodup, hmem⟩ := h.chains b hb
    have hil : i ∉ l := fun hmem' => hi ((hmem i).1 hmem').1
    by_cases hb' : key i % t.heads.length = b
    · subst hb'
      rw [if_pos rfl]
      refine ⟨i :: l, hchain.cons h0 hil, List.nodup_cons.2 ⟨hil, hnodup⟩, ?_⟩
      intro j
      rw [List.mem_cons, hmem j]
      constructor
      · rintro (rfl | ⟨hj, hk⟩)
        · exact ⟨Or.inr rfl, rfl⟩
        · exact ⟨Or.inl hj, hk⟩
      · rintro ⟨hj | rfl, hk⟩
        · exact Or.inr ⟨hj, hk⟩
        · exact Or.inl rfl
    · rw [if_neg hb']
      refine ⟨l, hchain.update hil _, hnodup, ?_⟩
      intro j
      rw [hmem j]
      constructor
      · rintro ⟨hj, hk⟩
        exact ⟨Or.inl hj, hk⟩
      · rintro ⟨hj | rfl, hk⟩
        · exact ⟨hj, hk⟩
        · exact absurd hk hb'

theorem Holds.remove (h : t.Holds key In) {p : Nat} (hp : In p) {fuel : Nat}
    (hfuel : ∀ i, In i → i < fuel) :
    (t.remove fuel (key p % t.heads.length) p).Holds key fun j => In j ∧ j ≠ p := by
  obtain ⟨lp, hchainp, hnodupp, hmemp⟩ := h.chain_of (key p)
  have hplp : p ∈ lp := (hmemp p).2 ⟨hp, rfl⟩
  unfold Table.remove
  split
  next hhead =>
    refine ⟨by simpa using h.pos, ?_⟩
    intro b hb
    dsimp only at hb ⊢
    rw [List.length_set] at hb ⊢
    rw [head_set t _ b _ _ (Nat.mod_lt _ h.pos)]
    by_cases hb' : key p % t.heads.length = b
    · subst hb'
      rw [if_pos rfl]
      cases lp with
      | nil => exact absurd hplp List.not_mem_nil
      | cons q l =>
        obtain ⟨hq, -, hrest⟩ := hchainp
        obtain rfl : q = p := hq.symm.trans hhead
        obtain ⟨hql, hnodup⟩ := List.nodup_cons.1 hnodupp
        rw [hhead] at hrest
        refine ⟨l, hrest, hnodup, ?_⟩
        intro j
        have hj := hmemp j
        rw [List.mem_cons] at hj
        constructor
        · intro hjl
          obtain ⟨hin, hk⟩ := hj.1 (Or.inr hjl)
          exact ⟨⟨hin, fun hjq => hql (hjq ▸ hjl)⟩, hk⟩
        · rintro ⟨⟨hin, hne⟩, hk⟩
          exact (hj.2 ⟨hin, hk⟩).resolve_left hne
    · rw [if_neg hb']
      obtain ⟨l, hchain, hnodup, hmem⟩ := h.chains b hb
      refine ⟨l, hchain, hnodup, ?_⟩
      intro j
      rw [hmem j]
      constructor
      · rintro ⟨hj, hk⟩
        refine ⟨⟨hj, ?_⟩, hk⟩
        rintro rfl
        exact hb' hk
      · rintro ⟨⟨hj, -⟩, hk⟩
        exact ⟨hj, hk⟩
  next hhead =>
    have hlen := length_le_of_lt hnodupp fun j hj => hfuel j ((hmemp j).1 hj).1
    obtain ⟨hunlinked, hframe⟩ := hchainp.unlink hnodupp hplp hhead hlen
    refine ⟨h.pos, ?_⟩
    intro b hb
    dsimp only at hb ⊢
    by_cases hb' : key p % t.heads.length = b
    · subst hb'
      refine ⟨lp.erase p, hunlinked, hnodupp.erase p, ?_⟩
      intro j
      rw [hnodupp.mem_erase_iff, hmemp j]
      constructor
      · rintro ⟨hne, hj, hk⟩
        exact ⟨⟨hj, hne⟩, hk⟩
      · rintro ⟨⟨hj, hne⟩, hk⟩
        exact ⟨hne, hj, hk⟩
    · obtain ⟨l, hchain, hnodup, hmem⟩ := h.chains b hb
      refine ⟨l, hchain.congr ?_, hnodup, ?_⟩
      · -- an entry of another chain is not touched
        intro j hj
        apply hframe
        intro hjp
        exact hb' (((hmemp j).1 hjp).2.symm.trans ((hmem j).1 hj).2)
      · intro j
        rw [hmem j]
        constructor
        · rintro ⟨hj, hk⟩
          refine ⟨⟨hj, ?_⟩, hk⟩
          rintro rfl
          exact hb' hk
        · rintro ⟨⟨hj, -⟩, hk⟩
          exact ⟨hj, hk⟩

/-! ## Resizing -/

theorem Holds.moveChain {h : Nat} (ht : t.Holds key In) (hchain : Chain t.next h l) (hnodup : l.Nodup)
    (hdisj : ∀ i ∈ l, ¬ In i) {fuel : Nat} (hfuel : l.length ≤ fuel) :
    (moveChain key fuel h t).Holds key (fun i => In i ∨ i ∈ l) ∧
      (Table.moveChain key fuel h t).heads.length = t.heads.length ∧
      ∀ j ∉ l, (Table.moveChain key fuel h t).next j = t.next j := by
  induction l generalizing h t In fuel with
  | nil =>
    obtain rfl : h = 0 := hchain
    have hsame : Table.moveChain key fuel 0 t = t := by
      cases fuel with
      | zero => rfl
      | succ fuel => rfl
    rw [hsame]
    refine ⟨ht.congr (by simp) (fun _ _ => rfl), rfl, fun _ _ => rfl⟩
  | cons k l ih =>
    obtain ⟨rfl, h0, hchain⟩ := hchain
    obtain ⟨hhl, hnodup⟩ := List.nodup_cons.1 hnodup
    rw [List.length_cons] at hfuel
    cases fuel with
    | zero => omega
    | succ fuel =>
      rw [Table.moveChain, if_neg h0]
      have hins := ht.insert (hdisj h List.mem_cons_self) h0
      have hrest : Chain (t.insert (key h % t.heads.length) h).next (t.next h) l := hchain.update hhl _
      obtain ⟨hholds, hlen, hframe⟩ := ih hins hrest hnodup (by
        rintro i hi (hin | rfl)
        · exact hdisj i (List.mem_cons_of_mem _ hi) hin
        · exact hhl hi) (Nat.le_of_succ_le_succ hfuel)
      refine ⟨hholds.congr ?_ (fun _ _ => rfl), ?_, ?_⟩
      · intro i
        rw [List.mem_cons, or_assoc]
      · rw [hlen]
        exact List.length_set
      · intro j hj
        rw [hframe j fun hmem => hj (List.mem_cons_of_mem _ hmem)]
        apply Function.update_of_ne
        rintro rfl
        exact hj List.mem_cons_self

theorem Holds.resize (ht : t.Holds key In) {n : Nat} (hn : 0 < n) {fuel : Nat}
    (hfuel : ∀ i, In i → i < fuel) : (t.resize key fuel n).Holds key In := by
  -- after `m` chains, the entries of these are in the new table, and the others where they were
  suffices hloop : ∀ m ≤ t.heads.length,
      ((List.range m).foldl (fun t' b => Table.moveChain key fuel (t.head b) t')
          { heads := List.replicate n 0, next := t.next }).Holds key
        (fun i => In i ∧ key i % t.heads.length < m) ∧
      ∀ j, ¬ (In j ∧ key j % t.heads.length < m) →
        ((List.range m).foldl (fun t' b => Table.moveChain key fuel (t.head b) t')
          { heads := List.replicate n 0, next := t.next }).next j = t.next j by
    refine (hloop _ (Nat.le_refl _)).1.congr ?_ (fun _ _ => rfl)
    intro i
    constructor
    · exact fun hi => ⟨hi, Nat.mod_lt _ ht.pos⟩
    · exact fun hi => hi.1
  intro m
  induction m with
  | zero =>
    intro _
    refine ⟨⟨by simpa using hn, ?_⟩, fun _ _ => rfl⟩
    intro b hb
    refine ⟨[], ?_, List.nodup_nil, ?_⟩
    · show List.getD (List.replicate n 0) b 0 = 0
      rw [List.getD_eq_getElem?_getD, List.getElem?_replicate]
      split
      next => rfl
      next => rfl
    · intro i
      simp
  | succ m ih =>
    intro hm
    obtain ⟨hholds, hframe⟩ := ih (by omega)
    obtain ⟨l, hchain, hnodup, hmem⟩ := ht.chains m hm
    rw [List.range_succ, List.foldl_append, List.foldl_cons, List.foldl_nil]
    have hold : ∀ i ∈ l, ¬ (In i ∧ key i % t.heads.length < m) := by
      rintro i hi ⟨-, hlt⟩
      have hk := ((hmem i).1 hi).2
      omega
    have hchain' := hchain.congr fun j hj => hframe j (hold j hj)
    have hlen := length_le_of_lt hnodup fun j hj => hfuel j ((hmem j).1 hj).1
    obtain ⟨hholds', -, hframe'⟩ := hholds.moveChain hchain' hnodup hold hlen
    refine ⟨hholds'.congr ?_ (fun _ _ => rfl), ?_⟩
    · intro i
      rw [hmem i, ← and_or_left, Nat.lt_succ_iff_lt_or_eq]
    · intro j hj
      rw [hframe' j, hframe j]
      · exact fun ⟨hin, hlt⟩ => hj ⟨hin, Nat.lt_succ_of_lt hlt⟩
      · intro hjl
        obtain ⟨hin, hk⟩ := (hmem j).1 hjl
        exact hj ⟨hin, by omega⟩

end Table

end HashChains
