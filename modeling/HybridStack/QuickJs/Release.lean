import HybridStack.Lib.Transition
import HybridStack.QuickJs.EventQueue

/-!
# No native call after release

`post` and `postVoid` look at `released` when a call is made; the call is queued later and runs later
still, after the closes that were queued before it. What has to be known when it is queued is
therefore what will be closed by the time a piece of work is reached: `Outlook`. `Foreseen` says
that, given the outlook now, everything the handler thread has before it, its stack and then its
queue, will find what it needs.

- `StepOk`: the steps that keep it so. `Inv.step` is the step lemma.
- `Inv.throws`: what an exception leaves, of application code or of `QuickJS.close` itself.
- `no_native_after_release`: in a run of such calls nothing is executed after its release.
- `native_after_release`: a script posted behind a `close` is.
-/

namespace HybridStack.QuickJs

open Transition

/-! ## Work and outlook -/

/-- What the handler thread has before it. -/
inductive Work
  | frame (f : Frame)
  | event (e : Event)
  deriving DecidableEq, Repr

def State.work (s : State) : List Work := s.stack.map .frame ++ s.queue.map .event

namespace Work

/-- The runtime is released once this is done. -/
def closesRuntime : Work → Bool
  | .frame (.call .closeRuntime) | .frame .size | .frame (.toArray _) | .frame .releaseRuntime
  | .frame .setReleased | .event .closeRuntime => true
  | _ => false

/-- The context that is closed once this is done. -/
def closes : Work → Option ContextPtr
  | .frame (.call (.closeContext c)) | .frame (.releaseRefs c) | .frame (.superClose c)
  | .event (.closeContext c) => some c
  | _ => none

end Work

/-- What a piece of work needs when its turn comes. -/
inductive Need
  | nothing
  /-- It runs unchecked: the context has to be there. -/
  | context (c : ContextPtr)
  /-- It is skipped when the runtime is released: otherwise the context has to be there. -/
  | contextUnlessReleased (c : ContextPtr)
  /-- The runtime has to be released. -/
  | released
  deriving DecidableEq, Repr

/-- Calls of `_releaseContext` and `_releaseRuntime` are for `close` to make. -/
def Operation.need (op : Operation) (c : ContextPtr) : Need :=
  if op = .releaseContext then .released else .contextUnlessReleased c

def Event.need : Event → Need
  | .operation op c =>
    match op.posting with
    | .post => .context c
    | .postVoid => op.need c
  | .releaseRuntime => .released
  | _ => .nothing

def Work.need : Work → Need
  | .event e => e.need
  | .frame (.call (.operation op c)) => op.need c
  | .frame (.call .releaseRuntime) | .frame .interrupt => .released
  | .frame (.resume _ c) => .context c
  | .frame (.releaseRefs c) | .frame (.superClose c) => .contextUnlessReleased c
  | _ => .nothing

structure Outlook where
  released : Bool
  closed : List ContextPtr

def State.outlook (s : State) : Outlook := ⟨s.released, s.closed⟩

/-- The outlook once `w` is done. -/
def Outlook.after (o : Outlook) (w : Work) : Outlook :=
  ⟨w.closesRuntime || o.released, w.closes.toList ++ o.closed⟩

def Need.Met (o : Outlook) : Need → Prop
  | .nothing => True
  | .context c => o.released = false ∧ c ∉ o.closed
  | .contextUnlessReleased c => o.released = true ∨ c ∉ o.closed
  | .released => o.released = true

/-- Every piece of work will find what it needs. -/
def Foreseen (o : Outlook) : List Work → Prop
  | [] => True
  | w :: ws => w.need.Met o ∧ Foreseen (o.after w) ws

/-! ## Forecasts -/

/-- `o'` has nothing closed that `o` has not, and the runtime is released in both or in neither;
where it is released, the contexts do not matter. -/
def Outlook.LE (o' o : Outlook) : Prop :=
  o'.released = o.released ∧ (o.released = true ∨ ∀ c ∈ o'.closed, c ∈ o.closed)

theorem Outlook.LE.after {o' o : Outlook} (h : o'.LE o) (w : Work) : (o'.after w).LE (o.after w) := by
  obtain ⟨hr, hc⟩ := h
  refine ⟨by simp only [Outlook.after, hr], ?_⟩
  rcases hc with hrel | hsub
  · exact Or.inl (by simp only [Outlook.after, hrel, Bool.or_true])
  · refine Or.inr fun c hmem => ?_
    rcases List.mem_append.1 hmem with hw | ho
    · exact List.mem_append_left _ hw
    · exact List.mem_append_right _ (hsub c ho)

theorem Need.Met.weaken {n : Need} {o' o : Outlook} (h : o'.LE o) (hm : n.Met o) : n.Met o' := by
  obtain ⟨hr, hc⟩ := h
  cases n with
  | nothing => trivial
  | released => exact hr.trans hm
  | context c =>
    refine ⟨hr.trans hm.1, fun hmem => ?_⟩
    rcases hc with hrel | hsub
    · exact Bool.false_ne_true (hm.1.symm.trans hrel)
    · exact hm.2 (hsub c hmem)
  | contextUnlessReleased c =>
    rcases hm with hrel | hnot
    · exact Or.inl (hr.trans hrel)
    · rcases hc with hrel | hsub
      · exact Or.inl (hr.trans hrel)
      · exact Or.inr fun hmem => hnot (hsub c hmem)

theorem Foreseen.weaken {o' o : Outlook} {ws : List Work} (h : o'.LE o) (hf : Foreseen o ws) :
    Foreseen o' ws := by
  induction ws generalizing o' o with
  | nil => trivial
  | cons w ws ih => exact ⟨hf.1.weaken h, ih (h.after w) hf.2⟩

/-- The outlook once all of `ws` is done. -/
def Outlook.afterAll (o : Outlook) (ws : List Work) : Outlook := ws.foldl Outlook.after o

theorem foreseen_append {o : Outlook} {ws ws' : List Work} :
    Foreseen o (ws ++ ws') ↔ Foreseen o ws ∧ Foreseen (o.afterAll ws) ws' := by
  induction ws generalizing o with
  | nil => simp only [List.nil_append, Foreseen, true_and, Outlook.afterAll, List.foldl_nil]
  | cons w ws ih =>
    simp only [List.cons_append, Foreseen, ih, Outlook.afterAll, List.foldl_cons, and_assoc]

theorem released_afterAll {o : Outlook} {ws : List Work} :
    (o.afterAll ws).released = (ws.any Work.closesRuntime || o.released) := by
  induction ws generalizing o with
  | nil => simp only [Outlook.afterAll, List.foldl_nil, List.any_nil, Bool.false_or]
  | cons w ws ih =>
    show ((o.after w).afterAll ws).released = _
    rw [ih, List.any_cons, Outlook.after, ← Bool.or_assoc, Bool.or_comm (ws.any _)]

theorem mem_closed_afterAll {o : Outlook} {ws : List Work} {c : ContextPtr} :
    c ∈ (o.afterAll ws).closed ↔ c ∈ o.closed ∨ ∃ w ∈ ws, w.closes = some c := by
  induction ws generalizing o with
  | nil => simp only [Outlook.afterAll, List.foldl_nil, List.not_mem_nil, false_and, exists_false,
      or_false]
  | cons w ws ih =>
    show c ∈ ((o.after w).afterAll ws).closed ↔ _
    rw [ih, Outlook.after, List.mem_append, Option.mem_toList]
    constructor
    · rintro ((hw | ho) | ⟨x, hx, hxc⟩)
      · exact Or.inr ⟨w, List.mem_cons_self, hw⟩
      · exact Or.inl ho
      · exact Or.inr ⟨x, List.mem_cons_of_mem w hx, hxc⟩
    · rintro (ho | ⟨x, hx, hxc⟩)
      · exact Or.inl (Or.inr ho)
      · rcases List.mem_cons.1 hx with rfl | hx
        · exact Or.inl (Or.inl hxc)
        · exact Or.inr ⟨x, hx, hxc⟩

/-! ## Closing ahead of everything else -/

/-- Needs the context when it is reached. -/
def Work.Uses (c : ContextPtr) (w : Work) : Prop :=
  w.need = .context c ∨ w.need = .contextUnlessReleased c

/-- Runs even when the runtime is released. -/
def Work.unchecked (w : Work) : Bool :=
  match w.need with
  | .context _ => true
  | _ => false

theorem Need.Met.close {n : Need} {o : Outlook} {c : ContextPtr} (h : n.Met o)
    (hc : ¬ (n = .context c ∨ n = .contextUnlessReleased c)) : n.Met ⟨o.released, c :: o.closed⟩ := by
  rw [not_or] at hc
  cases n with
  | nothing => trivial
  | released => exact h
  | context d =>
    refine ⟨h.1, fun hmem => ?_⟩
    rcases List.mem_cons.1 hmem with rfl | hmem
    · exact hc.1 rfl
    · exact h.2 hmem
  | contextUnlessReleased d =>
    refine h.imp_right fun hnot hmem => ?_
    rcases List.mem_cons.1 hmem with rfl | hmem
    · exact hc.2 rfl
    · exact hnot hmem

/-- A context may be closed at once if nothing uses it before the runtime is released. -/
theorem Foreseen.close {o : Outlook} {ws : List Work} {c : ContextPtr} (h : Foreseen o ws)
    (hc : ∀ w ∈ ws.takeWhile (!·.closesRuntime), ¬ w.Uses c) :
    Foreseen ⟨o.released, c :: o.closed⟩ ws := by
  induction ws generalizing o with
  | nil => trivial
  | cons w ws ih =>
    cases hw : w.closesRuntime with
    | true =>
      -- from here on the runtime is released
      have hneed : w.need = .nothing := by
        unfold Work.closesRuntime at hw
        split at hw <;> first | rfl | cases hw
      refine ⟨by rw [hneed]; trivial, h.2.weaken ⟨?_, Or.inl ?_⟩⟩
      · rfl
      · simp only [Outlook.after, hw, Bool.true_or]
    | false =>
      rw [List.takeWhile_cons_of_pos (by simp only [hw, Bool.not_false]), List.forall_mem_cons] at hc
      have hle : (Outlook.after ⟨o.released, c :: o.closed⟩ w).LE
          ⟨(o.after w).released, c :: (o.after w).closed⟩ := by
        refine ⟨rfl, Or.inr fun d hmem => ?_⟩
        simp only [Outlook.after, List.mem_append, List.mem_cons] at hmem ⊢
        tauto
      exact ⟨h.1.close hc.1, (ih h.2 hc.2).weaken hle⟩

/-- The runtime may be closed at once if everything looks at `released` first. -/
theorem Foreseen.closeRuntime {o : Outlook} {ws : List Work} (h : Foreseen o ws)
    (hun : ∀ w ∈ ws, w.unchecked = false) : Foreseen ⟨true, o.closed⟩ ws := by
  induction ws generalizing o with
  | nil => trivial
  | cons w ws ih =>
    rw [List.forall_mem_cons] at hun
    have hafter : Outlook.after ⟨true, o.closed⟩ w = ⟨true, (o.after w).closed⟩ := by
      simp only [Outlook.after, Bool.or_true]
    refine ⟨?_, hafter ▸ ih h.2 hun.2⟩
    have hw := hun.1
    unfold Work.unchecked at hw
    cases hn : w.need with
    | nothing => trivial
    | released => rfl
    | context c => simp only [hn, Bool.true_eq_false] at hw
    | contextUnlessReleased c => exact Or.inl rfl

/-! ## The steps that are all right -/

/-- A call that is put into the queue: no close it needs to come before has been made. -/
def State.QueuedOk (s : State) : Event → Prop
  | .operation op c =>
    match op.posting with
    | .post => s.released = false ∧ (∀ w ∈ s.work, w.closesRuntime = false) ∧ c ∉ s.closed ∧
        ∀ w ∈ s.work, w.closes ≠ some c
    | .postVoid => (s.released = true ∨ ∃ w ∈ s.work, w.closesRuntime = true) ∨
        (op ≠ .releaseContext ∧ c ∉ s.closed ∧ ∀ w ∈ s.work, w.closes ≠ some c)
  | .releaseRuntime => s.released = true ∨ ∃ w ∈ s.work, w.closesRuntime = true
  | .closeContext _ | .closeRuntime | .runnable => True

/-- A call of the handler thread itself, which is run ahead of everything that waits. -/
def State.DirectOk (s : State) : Event → Prop
  | .operation op c => op ≠ .releaseContext ∧ c ∉ s.closed
  | .releaseRuntime => False
  | .closeContext c => c ∈ s.closed ∨ ∀ w ∈ s.work.takeWhile (!·.closesRuntime), ¬ w.Uses c
  | .closeRuntime => ∀ w ∈ s.work, w.unchecked = false
  | .runnable => True

/-- What is thrown does not cut a `QuickJS.close` short, or nothing that is left relied on it. -/
def State.ThrowOk (s : State) : Prop :=
  (∀ f ∈ s.stack.tail.takeWhile (!·.catches), (Work.frame f).closesRuntime = false) ∨
    Foreseen s.outlook
      ((s.stack.tail.dropWhile (!·.catches)).map .frame ++ s.queue.map .event)

def StepOk (s : State) : Action → Prop
  | .enqueue e => s.QueuedOk e
  | .call .handler e => s.rejects = true ∨ s.DirectOk e
  | .throws => s.ThrowOk
  | .proceed _ => s.stack.head? = some .null → s.ThrowOk
  | .call .other _ | .createContext _ | .otherContexts _ | .returns | .releasePtr => True

/-! ## The invariant -/

/-- Frames between which and the one before no other can come. -/
def Frame.midClose : Frame → Bool
  | .releaseContext _ | .setReleased => true
  | _ => false

/-- The flags are right about what has been released, a moment inside the closes apart. -/
structure Sound (s : State) : Prop where
  safe : NoNativeAfterRelease s
  closed : ∀ c, .call .releaseContext c ∈ s.natives → c ∈ s.closed
  released : .releaseRuntime ∈ s.natives → s.released = true ∨ s.stack.head? = some .setReleased
  interrupted : s.interrupted = true → s.released = true
  tail : ∀ f ∈ s.stack.tail, f.midClose = false
  head : ∀ c, s.stack.head? = some (.releaseContext c) →
    c ∈ s.closed ∧ (s.released = true ∨ .call .releaseContext c ∉ s.natives)

structure Inv (s : State) : Prop extends Sound s where
  foreseen : Foreseen s.outlook s.work

section
variable {s : State}

theorem Sound.rejects_iff (h : Sound s) : s.rejects = true ↔ s.released = true := by
  rw [State.rejects, Bool.or_eq_true]
  constructor
  · rintro (hr | hi)
    · exact hr
    · exact h.interrupted hi
  · exact Or.inl

/-- Nothing has made an open context unusable. -/
theorem Sound.usable (h : Sound s) (hrel : s.released = false)
    (hhead : s.stack.head? ≠ some .setReleased) {c : ContextPtr} (hc : c ∉ s.closed) :
    ∀ n ∈ s.natives, ¬ n.Releases c := by
  rintro n hn (rfl | rfl)
  · exact hc (h.closed c hn)
  · rcases h.released hn with hr | hr
    · exact Bool.false_ne_true (hrel.symm.trans hr)
    · exact hhead hr

/-- One more native call, none that releases anything. -/
theorem Sound.native (h : Sound s) {n : Native} (hn : ∀ c, ¬ n.Releases c)
    (hsafe : ∀ c, n.contextPtr? = some c → ∀ m ∈ s.natives, ¬ m.Releases c) :
    Sound { s with natives := n :: s.natives } where
  safe := List.pairwise_cons.2 ⟨fun m hm c hc => hsafe c hc m hm, h.safe⟩
  closed c hmem := by
    rcases List.mem_cons.1 hmem with hcn | hmem
    · exact absurd (Or.inl hcn.symm) (hn c)
    · exact h.closed c hmem
  released hmem := by
    rcases List.mem_cons.1 hmem with hcn | hmem
    · exact absurd (Or.inr hcn.symm) (hn 0)
    · exact h.released hmem
  interrupted := h.interrupted
  tail := h.tail
  head c hc := by
    refine ⟨(h.head c hc).1, (h.head c hc).2.imp_right fun hnot hmem => ?_⟩
    rcases List.mem_cons.1 hmem with hcn | hmem
    · exact hn c (Or.inl hcn.symm)
    · exact hnot hmem

/-- Other frames, and nothing else. -/
theorem Sound.restack (h : Sound s) (hhead : s.stack.head? ≠ some .setReleased) {st : List Frame}
    (hst : ∀ f ∈ st, f.midClose = false) (q : List Event) :
    Sound { s with stack := st, queue := q } where
  safe := h.safe
  closed := h.closed
  released hmem := Or.inl ((h.released hmem).resolve_right hhead)
  interrupted := h.interrupted
  tail f hf := hst f (List.mem_of_mem_tail hf)
  head c hc := by
    have hmid := hst _ (List.mem_of_head? hc)
    exact absurd hmid (by simp only [Frame.midClose, Bool.true_eq_false, not_false_eq_true])

/-! ## Running an event -/

theorem Foreseen.skip {o : Outlook} {w : Work} {ws : List Work} (hrel : o.released = true)
    (h : Foreseen (o.after w) ws) : Foreseen o ws :=
  h.weaken ⟨by simp only [Outlook.after, hrel, Bool.or_true],
    Or.inl (by simp only [Outlook.after, hrel, Bool.or_true])⟩

/-- Work that closes nothing new. -/
theorem Foreseen.pop {o : Outlook} {w : Work} {ws : List Work} (hrun : w.closesRuntime = false)
    (h : Foreseen (o.after w) ws) : Foreseen o ws :=
  h.weaken ⟨by simp only [Outlook.after, hrun, Bool.false_or],
    Or.inr fun _ hc => List.mem_append_right _ hc⟩

theorem mem_visits {t : State} {n : Nat} {values : List ContextPtr} {f : Frame}
    (hf : f ∈ t.visits n values) : (∃ c, f = .call (.closeContext c)) ∨ f = .null := by
  unfold State.visits at hf
  rcases List.mem_append.1 hf with hf | hf
  · left
    split at hf
    next =>
      obtain ⟨c, -, rfl⟩ := List.mem_map.1 hf
      exact ⟨c, rfl⟩
    next => exact absurd hf List.not_mem_nil
  · right
    split at hf
    next => exact absurd hf List.not_mem_nil
    next => exact List.mem_singleton.1 hf

theorem midClose_visits {t : State} {n : Nat} {values : List ContextPtr} (f : Frame)
    (hf : f ∈ t.visits n values) : f.midClose = false := by
  rcases mem_visits hf with ⟨c, rfl⟩ | rfl
  · rfl
  · rfl

/-- Work that needs nothing. -/
theorem foreseen_of_nothing {ws : List Work} (h : ∀ w ∈ ws, w.need = .nothing) {o : Outlook} :
    Foreseen o ws := by
  induction ws generalizing o with
  | nil => trivial
  | cons w ws ih =>
    rw [List.forall_mem_cons] at h
    refine ⟨?_, ih h.2⟩
    rw [h.1]
    trivial

theorem foreseen_visits {o : Outlook} {t : State} {n : Nat} {values : List ContextPtr} :
    Foreseen o ((t.visits n values).map .frame) := by
  apply foreseen_of_nothing
  intro w hw
  obtain ⟨f, hf, rfl⟩ := List.mem_map.1 hw
  rcases mem_visits hf with ⟨c, rfl⟩ | rfl
  · rfl
  · rfl

/-- An operation on an open context. -/
theorem Inv.beginOperation (h : Inv s) (hst : ∀ f ∈ s.stack, f.midClose = false)
    (hrel : s.released = false) {op : Operation} {c : ContextPtr} (hop : op ≠ .releaseContext)
    (hc : c ∉ s.closed) : Inv (s.begin (.operation op c)) := by
  have hhead : s.stack.head? ≠ some .setReleased := fun hx =>
    absurd (hst _ (List.mem_of_head? hx)) (by decide)
  have hn : ∀ d, ¬ (Native.call op c).Releases d := by
    rintro d (hx | hx)
    · exact hop (Native.call.inj hx).1
    · cases hx
  have hnat : Sound { s with natives := .call op c :: s.natives } :=
    h.native hn fun d hd => by
      obtain rfl := Option.some.inj hd
      exact h.usable hrel hhead hc
  cases hcb : op.callsBack with
  | false =>
    simp only [State.begin, hcb, Bool.false_eq_true, if_false]
    exact ⟨hnat, h.foreseen⟩
  | true =>
    simp only [State.begin, hcb, if_true]
    refine ⟨hnat.restack hhead ?_ s.queue, trivial, ⟨hrel, hc⟩, h.foreseen⟩
    intro f hf
    rcases List.mem_cons.1 hf with rfl | hf
    · rfl
    · rcases List.mem_cons.1 hf with rfl | hf
      · rfl
      · exact hst f hf

/-- An event whose turn has come, the runtime not being released. -/
theorem Sound.begin (h : Sound s) (hst : ∀ f ∈ s.stack, f.midClose = false)
    (hrel : s.released = false) {e : Event} (hf : Foreseen (s.outlook.after (.event e)) s.work)
    (hop : ∀ op c, e = .operation op c → op ≠ .releaseContext ∧ c ∉ s.closed)
    (hrun : e ≠ .releaseRuntime) : Inv (s.begin e) := by
  have hhead : s.stack.head? ≠ some .setReleased := fun hx =>
    absurd (hst _ (List.mem_of_head? hx)) (by decide)
  cases e with
  | operation op c =>
    obtain ⟨h1, h2⟩ := hop op c rfl
    exact Inv.beginOperation ⟨h, hf.pop rfl⟩ hst hrel h1 h2
  | releaseRuntime => exact absurd rfl hrun
  | runnable =>
    exact ⟨h.restack hhead (List.forall_mem_cons.2 ⟨rfl, hst⟩) s.queue, trivial, hf⟩
  | closeContext c =>
    by_cases hc : c ∈ s.closed
    · simp only [State.begin, hc, if_true]
      exact ⟨h, hf.pop rfl⟩
    · simp only [State.begin, hc, if_false]
      refine ⟨h.restack hhead ?_ s.queue, trivial, Or.inr hc, hf⟩
      exact List.forall_mem_cons.2 ⟨rfl, List.forall_mem_cons.2 ⟨rfl, hst⟩⟩
  | closeRuntime =>
    rw [State.begin, if_neg (by rw [hrel]; exact Bool.false_ne_true)]
    exact ⟨h.restack hhead (List.forall_mem_cons.2 ⟨rfl, hst⟩) s.queue, trivial, hf⟩

/-! ## The steps -/

theorem State.work_cons {f : Frame} {st : List Frame} (h : s.stack = f :: st) :
    s.work = .frame f :: { s with stack := st }.work := by
  simp only [State.work, h, List.map_cons, List.cons_append]

/-- Below the top frame nothing is in the middle of a close. -/
theorem Sound.below (h : Sound s) {f : Frame} {st : List Frame} (hst : s.stack = f :: st) :
    ∀ g ∈ st, g.midClose = false := by
  have htail := h.tail
  rwa [hst] at htail

theorem head_ne_setReleased {f : Frame} {st : List Frame} (hs : s.stack = f :: st)
    (hf : f ≠ .setReleased) : s.stack.head? ≠ some .setReleased := by
  rw [hs, List.head?_cons]
  exact fun hx => hf (Option.some.inj hx)

theorem after_call {o : Outlook} (e : Event) : o.after (.frame (.call e)) = o.after (.event e) := by
  cases e <;> rfl

theorem Operation.need_met {op : Operation} {c : ContextPtr} {o : Outlook} (h : (op.need c).Met o)
    (hrel : o.released = false) : op ≠ .releaseContext ∧ c ∉ o.closed := by
  rw [Operation.need] at h
  split at h
  next => exact absurd (hrel.symm.trans h) Bool.false_ne_true
  next hop => exact ⟨hop, h.resolve_left fun hr => Bool.false_ne_true (hrel.symm.trans hr)⟩

/-- A checked native call on the handler thread that releases nothing. -/
theorem Sound.checked (h : Sound s) {n : Native} (hn : ∀ c, ¬ n.Releases c)
    (hsafe : s.released = false → ∀ c, n.contextPtr? = some c → ∀ m ∈ s.natives, ¬ m.Releases c) :
    Sound (s.checked n) := by
  rw [State.checked]
  split
  next => exact h
  next hrej => exact h.native hn (hsafe (by rwa [h.rejects_iff, Bool.not_eq_true] at hrej))

theorem outlook_checked {n : Native} : (s.checked n).outlook = s.outlook := by
  rw [State.checked]
  split <;> rfl

theorem work_checked {n : Native} : (s.checked n).work = s.work := by
  rw [State.checked]
  split <;> rfl

theorem releasePtr_not_releases {c : ContextPtr} (d : ContextPtr) :
    ¬ (Native.call .releasePtr c).Releases d := by
  rintro (hx | hx)
  · exact absurd (Native.call.inj hx).1 (by decide)
  · cases hx

/-- `_releasePtr` in the close of an open context. -/
theorem Inv.releasePtr (h : Inv s) {c : ContextPtr} {st : List Frame}
    (hs : s.stack = .releaseRefs c :: st) : Inv (s.checked (.call .releasePtr c)) := by
  have hf := h.foreseen
  rw [State.work_cons hs] at hf
  refine ⟨h.checked releasePtr_not_releases fun hrel d hd => ?_, ?_⟩
  · obtain rfl := Option.some.inj hd
    refine h.usable hrel (head_ne_setReleased hs (by simp)) (hf.1.resolve_left fun hr => ?_)
    exact Bool.false_ne_true (hrel.symm.trans hr)
  · rw [outlook_checked, work_checked]
    exact h.foreseen

/-- The moment between `super.close()` and `_releaseContext`. -/
theorem Sound.toReleaseContext (h : Sound s) {f : Frame} {st : List Frame} (hs : s.stack = f :: st)
    (hf : f ≠ .setReleased) {c : ContextPtr}
    (hc : s.released = true ∨ .call .releaseContext c ∉ s.natives) {closed : List ContextPtr}
    (hmem : c ∈ closed) (hsub : ∀ d ∈ s.closed, d ∈ closed) :
    Sound { s with stack := .releaseContext c :: st, closed } where
  safe := h.safe
  closed d hd := hsub d (h.closed d hd)
  released hmem := Or.inl ((h.released hmem).resolve_right (head_ne_setReleased hs hf))
  interrupted := h.interrupted
  tail := h.below hs
  head d hd := by
    obtain rfl := Frame.releaseContext.inj (Option.some.inj hd)
    exact ⟨hmem, hc⟩

theorem Inv.superClose (h : Inv s) {c : ContextPtr} {st : List Frame}
    (hs : s.stack = .superClose c :: st) {values : List ContextPtr} {s' : State}
    (hstep : { s with stack := st }.proceedIn values (.superClose c) = some s') : Inv s' := by
  have hf := h.foreseen
  rw [State.work_cons hs] at hf
  obtain ⟨hneed, hrest⟩ := hf
  rw [State.proceedIn, Option.some.injEq] at hstep
  by_cases hc : c ∈ s.closed
  · simp only [hc, if_true] at hstep
    subst hstep
    have hrel : s.released = true := hneed.resolve_right (not_not_intro hc)
    exact ⟨h.toReleaseContext hs (by simp) (Or.inl hrel) hc fun _ hd => hd, trivial,
      hrest.pop rfl⟩
  · simp only [hc, if_false] at hstep
    subst hstep
    have hfree : .call .releaseContext c ∉ s.natives := fun hmem => hc (h.closed c hmem)
    have hnext := h.toReleaseContext hs (by simp) (Or.inr hfree)
      (List.mem_cons_self (a := c) (l := s.closed)) fun d hd => List.mem_cons_of_mem c hd
    refine ⟨hnext.checked releasePtr_not_releases fun hrel d hd => ?_, ?_⟩
    · obtain rfl := Option.some.inj hd
      exact h.usable hrel (head_ne_setReleased hs (by simp)) hc
    · rw [outlook_checked, work_checked]
      exact ⟨trivial, hrest⟩

theorem Inv.releaseContext (h : Inv s) {c : ContextPtr} {st : List Frame}
    (hs : s.stack = .releaseContext c :: st) {values : List ContextPtr} {s' : State}
    (hstep : { s with stack := st }.proceedIn values (.releaseContext c) = some s') : Inv s' := by
  have hf := h.foreseen
  rw [State.work_cons hs] at hf
  have hhead : s.stack.head? ≠ some .setReleased := head_ne_setReleased hs (by simp)
  obtain ⟨hc, hfree⟩ := h.head c (by rw [hs, List.head?_cons])
  have hnext : Sound { s with stack := .removeContext c :: st } :=
    h.restack hhead (List.forall_mem_cons.2 ⟨rfl, h.below hs⟩) s.queue
  rw [State.proceedIn, Option.some.injEq] at hstep
  subst hstep
  refine ⟨?_, ?_⟩
  · rw [State.checked]
    split
    next => exact hnext
    next hrej =>
      have hrel : s.released ≠ true := fun hr => hrej (h.rejects_iff.2 hr)
      refine { hnext with safe := ?_, closed := ?_, released := ?_, head := ?_ }
      · refine List.pairwise_cons.2 ⟨?_, h.safe⟩
        rintro m hm d hd (rfl | rfl)
        · obtain rfl := Option.some.inj hd
          exact hfree.resolve_left hrel hm
        · exact hrel ((h.released hm).resolve_right hhead)
      · intro d hd
        rcases List.mem_cons.1 hd with hdc | hd
        · rw [(Native.call.inj hdc).2]
          exact hc
        · exact h.closed d hd
      · intro hmem
        rcases List.mem_cons.1 hmem with hx | hmem
        · cases hx
        · exact Or.inl ((h.released hmem).resolve_right hhead)
      · intro d hd
        cases hd
  · rw [outlook_checked, work_checked]
    exact ⟨trivial, hf.2⟩

theorem Inv.releaseRuntime (h : Inv s) {st : List Frame} (hs : s.stack = .releaseRuntime :: st)
    {values : List ContextPtr} {s' : State}
    (hstep : { s with stack := st }.proceedIn values .releaseRuntime = some s') : Inv s' := by
  have hf := h.foreseen
  rw [State.work_cons hs] at hf
  have hhead : s.stack.head? ≠ some .setReleased := head_ne_setReleased hs (by simp)
  rw [State.proceedIn, Option.some.injEq] at hstep
  subst hstep
  refine ⟨?_, ?_⟩
  · rw [State.checked]
    split
    next =>
      exact ⟨h.safe, h.closed, fun _ => Or.inr rfl, h.interrupted, h.below hs, fun d hd => by cases hd⟩
    next =>
      refine ⟨List.pairwise_cons.2 ⟨fun m _ d hd => ?_, h.safe⟩, fun d hd => ?_, fun _ => Or.inr rfl,
        h.interrupted, h.below hs, fun d hd => ?_⟩
      · cases hd
      · rcases List.mem_cons.1 hd with hx | hd
        · cases hx
        · exact h.closed d hd
      · cases hd
  · rw [outlook_checked, work_checked]
    exact ⟨trivial, hf.2⟩

/-- The two flags at the end of `QuickJS.close`. -/
theorem Inv.setFlags (h : Inv s) {st : List Frame} {values : List ContextPtr} {s' : State}
    (hs : s.stack = .setReleased :: st ∧
        { s with stack := st }.proceedIn values .setReleased = some s' ∨
      s.stack = .interrupt :: st ∧
        { s with stack := st }.proceedIn values .interrupt = some s') : Inv s' := by
  have hf := h.foreseen
  rcases hs with ⟨hs, hstep⟩ | ⟨hs, hstep⟩
  · rw [State.work_cons hs] at hf
    rw [State.proceedIn, Option.some.injEq] at hstep
    subst hstep
    exact ⟨⟨h.safe, h.closed, fun _ => Or.inl rfl, fun _ => rfl, h.below hs, fun d hd => by cases hd⟩,
      rfl, hf.2⟩
  · rw [State.work_cons hs] at hf
    rw [State.proceedIn, Option.some.injEq] at hstep
    subst hstep
    have hnext := h.restack (head_ne_setReleased hs (by simp)) (h.below hs) s.queue
    exact ⟨{ hnext with interrupted := fun _ => hf.1 }, hf.2⟩

/-- The frame on top throws, and those up to the one that catches are dropped. -/
theorem Inv.throws (h : Inv s) {f : Frame} {st : List Frame} (hs : s.stack = f :: st)
    (hfr : f ≠ .setReleased) (hf0 : (Work.frame f).closesRuntime = false) (hok : s.ThrowOk) :
    Inv { s with stack := st }.unwind := by
  have hst : ∀ f ∈ st.dropWhile (!·.catches), f.midClose = false := fun g hg =>
    h.below hs g ((List.dropWhile_sublist _).subset hg)
  refine ⟨h.restack (head_ne_setReleased hs hfr) hst s.queue, ?_⟩
  have hf := h.foreseen
  rw [State.work_cons hs] at hf
  rw [State.ThrowOk, hs, List.tail_cons] at hok
  rcases hok with hcut | hleft
  · have hsplit : { s with stack := st }.work = (st.takeWhile (!·.catches)).map .frame ++
        { s with stack := st.dropWhile (!·.catches) }.work := by
      simp only [State.work]
      rw [← List.append_assoc, ← List.map_append, List.takeWhile_append_dropWhile]
    have hrest := hf.2.pop hf0
    rw [hsplit, foreseen_append] at hrest
    refine hrest.2.weaken ⟨?_, Or.inr fun c hc => ?_⟩
    · have hany : ((st.takeWhile (!·.catches)).map Work.frame).any Work.closesRuntime = false := by
        rw [List.any_eq_false]
        intro w hw
        obtain ⟨f, hf, rfl⟩ := List.mem_map.1 hw
        rw [hcut f hf]
        exact Bool.false_ne_true
      rw [released_afterAll, hany, Bool.false_or]
      rfl
    · exact mem_closed_afterAll.2 (Or.inl hc)
  · exact hleft

/-- What a close finds in the array of the contexts, before it comes to `_releaseRuntime`. -/
theorem Inv.toArray (h : Inv s) {n : Nat} {st : List Frame} (hs : s.stack = .toArray n :: st)
    (values : List ContextPtr) :
    Inv { s with stack := State.visits { s with stack := st } n values ++ .releaseRuntime :: st } := by
  have hf := h.foreseen
  rw [State.work_cons hs] at hf
  refine ⟨h.restack (head_ne_setReleased hs (by simp)) ?_ s.queue, ?_⟩
  · intro f hmem
    rcases List.mem_append.1 hmem with hmem | hmem
    · exact midClose_visits f hmem
    · rcases List.mem_cons.1 hmem with rfl | hmem
      · rfl
      · exact h.below hs f hmem
  · -- behind the close nothing depends on which contexts are open
    show Foreseen _ (List.map _ (_ ++ _) ++ _)
    rw [List.map_append, List.append_assoc, foreseen_append]
    refine ⟨foreseen_visits, trivial, hf.2.weaken ⟨?_, Or.inl ?_⟩⟩ <;>
      simp only [Outlook.after, Work.closesRuntime, Bool.true_or]

theorem Inv.proceed (h : Inv s) {f : Frame} {st : List Frame} (hs : s.stack = f :: st)
    (hok : f = .null → s.ThrowOk) {values : List ContextPtr} {s' : State}
    (hstep : { s with stack := st }.proceedIn values f = some s') : Inv s' := by
  have hbelow := h.below hs
  have hf := h.foreseen
  rw [State.work_cons hs] at hf
  obtain ⟨hneed, hrest⟩ := hf
  cases f with
  | user => cases hstep
  | superClose c => exact h.superClose hs hstep
  | releaseContext c => exact h.releaseContext hs hstep
  | releaseRuntime => exact h.releaseRuntime hs hstep
  | setReleased => exact h.setFlags (Or.inl ⟨hs, hstep⟩)
  | interrupt => exact h.setFlags (Or.inr ⟨hs, hstep⟩)
  | call e =>
    have hnext := h.restack (head_ne_setReleased hs (by simp)) hbelow s.queue
    rw [State.proceedIn, Option.some.injEq] at hstep
    split at hstep
    next hrej =>
      subst hstep
      exact ⟨hnext, hrest.skip (h.rejects_iff.1 hrej)⟩
    next hrej =>
      subst hstep
      have hrel : s.released = false := by
        rw [← Bool.not_eq_true]
        exact fun hr => hrej (h.rejects_iff.2 hr)
      rw [after_call] at hrest
      refine hnext.begin hbelow hrel hrest (fun op c he => ?_) (fun he => ?_)
      · subst he
        exact Operation.need_met hneed hrel
      · subst he
        exact Bool.false_ne_true (hrel.symm.trans hneed)
  | resume op c =>
    have hnext := h.restack (head_ne_setReleased hs (by simp)) hbelow s.queue
    rw [State.proceedIn, Option.some.injEq] at hstep
    subst hstep
    refine ⟨hnext.native ?_ fun d hd => ?_, hrest⟩
    · rintro d (hx | hx) <;> cases hx
    · obtain rfl := Option.some.inj hd
      exact h.usable hneed.1 (head_ne_setReleased hs (by simp)) hneed.2
  | releaseRefs c =>
    rw [State.proceedIn, Option.some.injEq] at hstep
    subst hstep
    exact ⟨h.restack (head_ne_setReleased hs (by simp)) (List.forall_mem_cons.2 ⟨rfl, hbelow⟩)
      s.queue, hneed, hrest⟩
  | size =>
    rw [State.proceedIn, Option.some.injEq] at hstep
    subst hstep
    exact ⟨h.restack (head_ne_setReleased hs (by simp)) (List.forall_mem_cons.2 ⟨rfl, hbelow⟩)
      s.queue, trivial, hrest⟩
  | toArray n =>
    rw [State.proceedIn, Option.some.injEq] at hstep
    subst hstep
    exact h.toArray hs values
  | null =>
    rw [State.proceedIn, Option.some.injEq] at hstep
    subst hstep
    exact h.throws hs (by simp) rfl (hok rfl)
  | removeContext c =>
    rw [State.proceedIn, Option.some.injEq] at hstep
    subst hstep
    have hnext := h.restack (head_ne_setReleased hs (by simp)) hbelow s.queue
    exact ⟨{ hnext with }, hrest⟩

/-- The next event of the queue. -/
theorem Inv.dequeue (h : Inv s) (hs : s.stack = []) {e : Event} {q : List Event}
    (hq : s.queue = e :: q) : Inv ({ s with queue := q }.dequeue e) := by
  have hempty : ∀ f ∈ s.stack, f.midClose = false := by
    rw [hs]
    exact List.forall_mem_nil _
  have hhead : s.stack.head? ≠ some .setReleased := by
    rw [hs]
    simp
  have hnext : Sound { s with queue := q } := h.restack hhead hempty q
  have hwork : s.work = .event e :: { s with queue := q }.work := by
    simp only [State.work, hs, hq, List.map_nil, List.map_cons, List.nil_append]
  have hf := h.foreseen
  rw [hwork] at hf
  obtain ⟨hneed, hrest⟩ := hf
  rw [State.dequeue]
  cases hp : e.posting with
  | post =>
    -- run whatever `released` says
    cases e with
    | operation op c =>
      have hp' : op.posting = .post := hp
      have hctx : (Need.context c).Met s.outlook := by
        simpa only [Work.need, Event.need, hp'] using hneed
      have hop : op ≠ .releaseContext := by
        rintro rfl
        cases hp'
      exact Inv.beginOperation ⟨hnext, hrest.pop rfl⟩ hempty hctx.1 hop hctx.2
    | _ => cases hp
  | postVoid =>
    by_cases hreleased : s.released = true
    · dsimp only
      rw [if_pos hreleased]
      exact ⟨hnext, hrest.skip hreleased⟩
    · dsimp only
      rw [if_neg hreleased]
      have hrel : s.released = false := Bool.not_eq_true _ ▸ hreleased
      refine hnext.begin hempty hrel hrest (fun op c he => ?_) (fun he => ?_)
      · subst he
        have hp' : op.posting = .postVoid := hp
        have hop : (op.need c).Met s.outlook := by
          simpa only [Work.need, Event.need, hp'] using hneed
        exact Operation.need_met hop hrel
      · subst he
        exact hreleased hneed

/-! ## The calls -/

/-- A call that may be queued finds what it needs at the end of the queue. -/
theorem State.QueuedOk.need_met {e : Event} (h : s.QueuedOk e) :
    e.need.Met (s.outlook.afterAll s.work) := by
  have hreleased : (s.released = true ∨ ∃ w ∈ s.work, w.closesRuntime = true) →
      (s.outlook.afterAll s.work).released = true := by
    rintro (hrel | hw)
    · rw [released_afterAll, State.outlook, hrel, Bool.or_true]
    · rw [released_afterAll, List.any_eq_true.2 hw, Bool.true_or]
  have hopen : ∀ c, c ∉ s.closed → (∀ w ∈ s.work, w.closes ≠ some c) →
      c ∉ (s.outlook.afterAll s.work).closed := fun c hc hw hmem => by
    rcases mem_closed_afterAll.1 hmem with hmem | ⟨w, hmem, hwc⟩
    · exact hc hmem
    · exact hw w hmem hwc
  cases e with
  | closeContext c => trivial
  | closeRuntime => trivial
  | runnable => trivial
  | releaseRuntime => exact hreleased h
  | operation op c =>
    rw [QuickJs.Event.need]
    rw [State.QueuedOk] at h
    cases hp : op.posting with
    | post =>
      simp only [hp] at h ⊢
      obtain ⟨hrel, hrun, hc, hw⟩ := h
      refine ⟨?_, hopen c hc hw⟩
      rw [released_afterAll, List.any_eq_false.2 fun w hmem => by rw [hrun w hmem]; decide]
      exact hrel
    | postVoid =>
      simp only [hp] at h ⊢
      rw [Operation.need]
      split
      next hop => exact hreleased (h.resolve_right fun hx => hx.1 hop)
      next => exact h.imp hreleased fun hx => hopen c hx.2.1 hx.2.2

/-- A call of another thread comes to the end of the queue. -/
theorem Inv.enqueue (h : Inv s) {e : Event} (hok : s.QueuedOk e) :
    Inv { s with passed := s.passed.erase e, queue := s.queue ++ [e] } := by
  refine ⟨{ h.toSound with }, ?_⟩
  have hwork : State.work { s with passed := s.passed.erase e, queue := s.queue ++ [e] } =
      s.work ++ [.event e] := by
    simp only [State.work, List.map_append, List.map_cons, List.map_nil, List.append_assoc]
  rw [hwork, foreseen_append]
  exact ⟨h.foreseen, hok.need_met, trivial⟩

/-- A call of application code on the handler thread is ahead of all other work. -/
theorem Inv.callHandler (h : Inv s) {e : Event} {st : List Frame} (hs : s.stack = .user :: st)
    (hok : s.rejects = true ∨ s.DirectOk e) : Inv { s with stack := .call e :: s.stack } := by
  have hst : ∀ f ∈ s.stack, f.midClose = false := by
    rw [hs]
    exact List.forall_mem_cons.2 ⟨rfl, h.below hs⟩
  refine ⟨h.restack (head_ne_setReleased hs (by simp)) (List.forall_mem_cons.2 ⟨rfl, hst⟩) s.queue,
    ?_⟩
  show (Work.frame (.call e)).need.Met s.outlook ∧
    Foreseen (s.outlook.after (.frame (.call e))) s.work
  rcases hok with hrej | hok
  · -- the call will be rejected
    have hrel : s.outlook.released = true := h.rejects_iff.1 hrej
    refine ⟨?_, h.foreseen.weaken ⟨?_, Or.inl hrel⟩⟩
    · cases e with
      | operation op c =>
        show (op.need c).Met s.outlook
        rw [Operation.need]
        split
        next => exact hrel
        next => exact Or.inl hrel
      | releaseRuntime => exact hrel
      | _ => trivial
    · simp only [Outlook.after, hrel, Bool.or_true]
  · cases e with
    | operation op c =>
      refine ⟨?_, h.foreseen⟩
      show (op.need c).Met s.outlook
      rw [Operation.need, if_neg hok.1]
      exact Or.inr hok.2
    | releaseRuntime => exact absurd hok not_false
    | runnable => exact ⟨trivial, h.foreseen⟩
    | closeRuntime => exact ⟨trivial, h.foreseen.closeRuntime hok⟩
    | closeContext c =>
      refine ⟨trivial, ?_⟩
      rcases hok with hc | hok
      · have hle : (s.outlook.after (.frame (.call (.closeContext c)))).LE s.outlook := by
          refine ⟨rfl, Or.inr fun d hd => ?_⟩
          rcases List.mem_cons.1 hd with rfl | hd
          · exact hc
          · exact hd
        exact h.foreseen.weaken hle
      · exact h.foreseen.close hok

/-! ## Runs -/

/-- **What one step preserves.** -/
theorem Inv.step (h : Inv s) {a : Action} {s' : State} (hok : StepOk s a)
    (hstep : QuickJs.step s a = some s') : Inv s' := by
  cases a with
  | createContext c =>
    rw [QuickJs.step] at hstep
    split at hstep
    next => cases hstep
    next =>
      obtain rfl := Option.some.inj hstep
      exact ⟨{ h.toSound with }, h.foreseen⟩
  | otherContexts n =>
    obtain rfl := Option.some.inj hstep
    exact ⟨{ h.toSound with }, h.foreseen⟩
  | enqueue e =>
    rw [QuickJs.step] at hstep
    split at hstep
    next =>
      obtain rfl := Option.some.inj hstep
      exact h.enqueue hok
    next => cases hstep
  | call t e =>
    cases t with
    | other =>
      obtain rfl := Option.some.inj hstep
      split
      next => exact h
      next => exact ⟨{ h.toSound with }, h.foreseen⟩
    | handler =>
      rw [QuickJs.step] at hstep
      split at hstep
      next st hs =>
        obtain rfl := Option.some.inj hstep
        exact hs ▸ h.callHandler hs hok
      next => cases hstep
  | returns =>
    rw [QuickJs.step] at hstep
    split at hstep
    next st hs =>
      obtain rfl := Option.some.inj hstep
      have hf := h.foreseen
      rw [State.work_cons hs] at hf
      exact ⟨h.restack (head_ne_setReleased hs (by simp)) (h.below hs) s.queue, hf.2⟩
    next => cases hstep
  | throws =>
    rw [QuickJs.step] at hstep
    split at hstep
    next st hs =>
      obtain rfl := Option.some.inj hstep
      exact h.throws hs (by simp) rfl hok
    next => cases hstep
  | releasePtr =>
    rw [QuickJs.step] at hstep
    split at hstep
    next c st hs =>
      obtain rfl := Option.some.inj hstep
      exact h.releasePtr hs
    next => cases hstep
  | proceed values =>
    rw [QuickJs.step] at hstep
    split at hstep
    next =>
      split at hstep
      next f st hs =>
        refine h.proceed hs (fun hf => hok ?_) hstep
        rw [hs, hf]
        rfl
      next hs =>
        split at hstep
        next e q hq =>
          obtain rfl := Option.some.inj hstep
          exact h.dequeue hs hq
        next => cases hstep
    next => cases hstep

end

theorem inv_initial : Inv {} where
  safe := List.Pairwise.nil
  closed c h := by cases h
  released h := by cases h
  interrupted h := by cases h
  tail f h := by cases h
  head c h := by cases h
  foreseen := trivial

/-- **No native call after release, as long as no call is behind a close it needs to come before.**
A call may be queued if no close of its context or, unless it looks at `released` again, of the
runtime is done, under way or queued; a close may run on the handler thread if nothing still uses the
context; and a close of the runtime may stop at a null if nothing relied on it. -/
theorem no_native_after_release (s : State) (h : Reaches step StepOk {} s) : NoNativeAfterRelease s :=
  (h.invariant Inv inv_initial fun _ _ _ hi hok hstep => hi.step hok hstep).safe

/-- A script that runs and calls back, then the close of the runtime, and a `_set` that passes its
check before and is queued behind it. -/
def orderlyRun : List Action :=
  [.createContext 1, .otherContexts 1, .call .other (.operation .executeScript 1),
    .enqueue (.operation .executeScript 1), .proceed [1], .call .handler (.operation .get 1),
    .proceed [1], .returns, .proceed [1], .returns, .proceed [1], .call .other (.operation .set 1),
    .call .other .closeRuntime, .enqueue .closeRuntime, .enqueue (.operation .set 1), .proceed [1],
    .proceed [1], .proceed [1], .proceed [1], .returns, .releasePtr, .proceed [1], .proceed [1],
    .proceed [1], .proceed [1], .proceed [], .proceed [], .proceed [], .proceed []]

def orderlyEnd : State where
  released := true
  interrupted := true
  closed := [1]
  others := 1
  natives := [.releaseRuntime, .call .releaseContext 1, .call .releasePtr 1, .call .releasePtr 1,
    .resume .executeScript 1, .resume .get 1, .call .get 1, .call .executeScript 1]

theorem stepOk_proceed {s : State} {values : List ContextPtr} (h : s.stack.head? ≠ some .null) :
    StepOk s (.proceed values) := fun hnull => absurd hnull h

theorem orderlyRun_meets : Meets step StepOk {} orderlyRun := by
  refine ⟨trivial, trivial, trivial, ⟨rfl, ?_, ?_, ?_⟩, stepOk_proceed (by decide),
    Or.inr ⟨by decide, List.not_mem_nil⟩, stepOk_proceed (by decide), trivial,
    stepOk_proceed (by decide), trivial, stepOk_proceed (by decide), trivial, trivial, trivial,
    Or.inl (Or.inr ⟨_, List.mem_singleton_self _, rfl⟩), stepOk_proceed (by decide),
    stepOk_proceed (by decide), stepOk_proceed (by decide), stepOk_proceed (by decide), trivial, trivial,
    stepOk_proceed (by decide), stepOk_proceed (by decide), stepOk_proceed (by decide),
    stepOk_proceed (by decide), stepOk_proceed (by decide), stepOk_proceed (by decide),
    stepOk_proceed (by decide), stepOk_proceed (by decide), trivial⟩
  · exact List.forall_mem_nil _
  · exact List.not_mem_nil
  · exact List.forall_mem_nil _

theorem no_native_after_release_orderlyRun :
    run step {} orderlyRun = some orderlyEnd ∧ NoNativeAfterRelease orderlyEnd := by
  have hrun : run step {} orderlyRun = some orderlyEnd := by rfl
  exact ⟨hrun, no_native_after_release orderlyEnd (reaches_of_run hrun orderlyRun_meets)⟩

def lateScript : List Action :=
  [.createContext 1, .call .other (.closeContext 1), .enqueue (.closeContext 1),
    .call .other (.operation .executeScript 1), .enqueue (.operation .executeScript 1),
    .proceed [1], .returns, .proceed [1], .proceed [1], .proceed [1], .proceed [1], .proceed []]

/-- **A script posted behind `JSContext.close`** runs in the released context. -/
theorem native_after_release : ¬ ∀ s, Reaches step (fun _ _ => True) {} s → NoNativeAfterRelease s := by
  intro h
  have hrun : run step {} lateScript = some
      { closed := [1], stack := [.user, .resume .executeScript 1],
        natives := [.call .executeScript 1, .call .releaseContext 1, .call .releasePtr 1] } := by rfl
  have hsafe := h _ (reaches_of_run hrun (meets_true _ _))
  have hlater := (List.pairwise_cons.1 hsafe).1 (.call .releaseContext 1) List.mem_cons_self
  exact hlater 1 rfl (Or.inl rfl)

end HybridStack.QuickJs
