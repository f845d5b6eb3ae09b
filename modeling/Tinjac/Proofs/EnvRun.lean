/-
Environment vectors over whole runs: any interleaving of `env_set` and
`env_copy` on any number of vectors, under any pattern of allocation
failures.

# The run

`EnvRun` holds the heap and the vectors, each with the strings that were
set in it successfully, in order: a history the calls do not read. A
copy starts with the history of its source.

# The invariant

Every vector holds what its history settles to (`Rep` of `settle`), and
no two vectors share a block (`EnvRun.Inv`). One call keeps it
(`step_shows`) and changes no vector but the one it sets (`run_other`),
since each function promises a `Frame`.
-/
import Tinjac.Proofs.EnvVector

namespace Tinjac

open BlockHeap BlockHeap.Heap CHeap KeyedList

-- ============================================================= the run

/-- A heap and the environment vectors made in it, with their
histories. -/
structure EnvRun where
  heap : CHeap
  vecs : List (Nat × List CString)

/-- One call, on the vector with this number: `env_set` with a string, or
`env_copy`, which makes another vector. -/
inductive EnvOp
  | set (k : Nat) (s : CString)
  | copy (k : Nat)

namespace EnvOp

/-- The vector a call is about. -/
def vector : EnvOp → Nat
  | set k _ => k
  | copy k => k

/-- The strings set contain a `=`. -/
def Legal : EnvOp → Prop
  | set _ s => equals ∈ s.bytes
  | copy _ => True

/-- The call sets a string in vector `k`. -/
def Sets (k : Nat) : EnvOp → Prop
  | set j _ => j = k
  | copy _ => False

end EnvOp

namespace EnvRun

/-- What a call returns, and the state after it: the caller goes on with
the pointer returned unless it is `NULL`. -/
def step (st : EnvRun) : EnvOp → Option Nat × EnvRun
  | .set k s =>
      match st.vecs[k]? with
      | none => (none, st)
      | some (v, hist) =>
          match envSet st.heap v s with
          | (none, h) => (none, { st with heap := h })
          | (some v', h) =>
              (some v',
                { heap := h, vecs := st.vecs.set k (v', hist ++ [s]) })
  | .copy k =>
      match st.vecs[k]? with
      | none => (none, st)
      | some (v, hist) =>
          match envCopy st.heap v with
          | (none, h) => (none, { st with heap := h })
          | (some p, h) =>
              (some p, { heap := h, vecs := st.vecs ++ [(p, hist)] })

/-- A run of calls. -/
def run (st : EnvRun) (ops : List EnvOp) : EnvRun :=
  ops.foldl (fun st op => (st.step op).2) st

/-- The state after `env_init`: one vector, with nothing set in it. -/
def init (h : CHeap) (v : Nat) : EnvRun := { heap := h, vecs := [(v, [])] }

-- ======================================================= the invariant

/-- Every vector holds what its history settles to, in blocks (`own`) no
other vector has. -/
structure Inv (st : EnvRun) (own : Nat → List Nat) : Prop where
  rep : ∀ {k v : Nat} {hist : List CString}, st.vecs[k]? = some (v, hist) →
    Rep st.heap v (own k) (settle envName hist)
  legal : ∀ {k v : Nat} {hist : List CString},
    st.vecs[k]? = some (v, hist) → ∀ s ∈ hist, equals ∈ s.bytes
  disjoint : ∀ {j k v w : Nat} {hist hist' : List CString}, j ≠ k →
    st.vecs[j]? = some (v, hist) → st.vecs[k]? = some (w, hist') →
    ∀ a ∈ v :: own j, a ∉ w :: own k

variable {st : EnvRun} {own : Nat → List Nat}

theorem Inv.legal_settle (hinv : Inv st own) {k v : Nat}
    {hist : List CString} (hk : st.vecs[k]? = some (v, hist)) :
    ∀ s ∈ settle envName hist, equals ∈ s.bytes :=
  fun s hs => hinv.legal hk s (mem_of_mem_settle hs)

theorem inv_init {h0 h : CHeap} {v : Nat}
    (hinit : envInit h0 = (some v, h)) :
    Inv (init h v) (fun _ => []) := by
  rcases envInit_spec h0 with ⟨h', heq, -⟩ | ⟨v', h', heq, hrep, -⟩
  · rw [heq] at hinit
    cases hinit
  · rw [heq] at hinit
    injection hinit with hv hh
    injection hv with hv
    subst hv hh
    have honly : ∀ {k w hist}, (init h' v').vecs[k]? = some (w, hist) →
        k = 0 ∧ w = v' ∧ hist = [] := by
      intro k w hist hk
      cases k with
      | zero =>
          injection hk with hk
          injection hk with hw hhist
          exact ⟨rfl, hw.symm, hhist.symm⟩
      | succ k => cases hk
    refine ⟨?_, ?_, ?_⟩
    · intro k w hist hk
      obtain ⟨-, rfl, rfl⟩ := honly hk
      exact hrep
    · intro k w hist hk s hs
      obtain ⟨-, -, rfl⟩ := honly hk
      cases hs
    · intro j k w w' hist hist' hjk hj hk
      obtain ⟨rfl, -, -⟩ := honly hj
      obtain ⟨rfl, -, -⟩ := honly hk
      exact absurd rfl hjk

/-- A state whose heap changed in no live block. -/
theorem Inv.frame (hinv : Inv st own) {h : CHeap}
    (hf : Frame st.heap h fun _ => False) :
    Inv { st with heap := h } own :=
  ⟨fun hk => (hinv.rep hk).frame hf fun _ _ hS => hS, hinv.legal,
    hinv.disjoint⟩

/-- A vector that was set. -/
theorem Inv.set (hinv : Inv st own) {k v v' : Nat} {hist : List CString}
    {s : CString} {h : CHeap} {addrs : List Nat}
    (hk : st.vecs[k]? = some (v, hist)) (hs : equals ∈ s.bytes)
    (hrep : Rep h v' addrs (upsert envName (settle envName hist) s))
    (hf : Frame st.heap h fun a => a ∈ v :: own k)
    (hnew : ∀ a ∈ v' :: addrs, a ∈ v :: own k ∨ st.heap.next ≤ a) :
    Inv { heap := h, vecs := st.vecs.set k (v', hist ++ [s]) }
      (Function.update own k addrs) := by
  have hklt : k < st.vecs.length := (List.getElem?_eq_some_iff.mp hk).1
  have hself : (st.vecs.set k (v', hist ++ [s]))[k]?
      = some (v', hist ++ [s]) := by
    rw [List.getElem?_set_self hklt]
  -- what was not set keeps its blocks, which the new ones avoid
  have hother : ∀ {j w hist'}, j ≠ k → st.vecs[j]? = some (w, hist') →
      ∀ a ∈ w :: own j, a ∉ v' :: addrs := by
    intro j w hist' hjk hj a ha hmem
    rcases hnew a hmem with hold | hfresh
    · exact hinv.disjoint hjk hj hk a ha hold
    · have := (hinv.rep hj).lt_next ha
      omega
  refine ⟨?_, ?_, ?_⟩
  · intro j w hist' hj
    by_cases hjk : j = k
    · subst hjk
      rw [hself] at hj
      injection hj with hj
      injection hj with hw hhist
      subst hw hhist
      rw [Function.update_self, settle_append]
      exact hrep
    · rw [List.getElem?_set_ne (fun hc => hjk hc.symm)] at hj
      rw [Function.update_of_ne hjk]
      exact (hinv.rep hj).frame hf
        fun a ha hmem => hinv.disjoint hjk hj hk a ha hmem
  · intro j w hist' hj
    by_cases hjk : j = k
    · subst hjk
      rw [hself] at hj
      injection hj with hj
      injection hj with hw hhist
      subst hw hhist
      intro t ht
      rcases List.mem_append.mp ht with ht | ht
      · exact hinv.legal hk t ht
      · rw [List.mem_singleton.mp ht]
        exact hs
    · rw [List.getElem?_set_ne (fun hc => hjk hc.symm)] at hj
      exact hinv.legal hj
  · intro i j w w' hist1 hist2 hij hi hj a ha hmem
    by_cases hik : i = k
    · subst hik
      rw [hself] at hi
      injection hi with hi
      injection hi with hw hhist
      subst hw
      rw [List.getElem?_set_ne hij] at hj
      rw [Function.update_self] at ha
      rw [Function.update_of_ne hij.symm] at hmem
      exact hother hij.symm hj a hmem ha
    · rw [List.getElem?_set_ne (fun hc => hik hc.symm)] at hi
      rw [Function.update_of_ne hik] at ha
      by_cases hjk : j = k
      · subst hjk
        rw [hself] at hj
        injection hj with hj
        injection hj with hw hhist
        subst hw
        rw [Function.update_self] at hmem
        exact hother hik hi a ha hmem
      · rw [List.getElem?_set_ne (fun hc => hjk hc.symm)] at hj
        rw [Function.update_of_ne hjk] at hmem
        exact hinv.disjoint hij hi hj a ha hmem

/-- A vector that was copied. -/
theorem Inv.copy (hinv : Inv st own) {k v p : Nat} {hist : List CString}
    {h : CHeap} {addrs : List Nat} (hk : st.vecs[k]? = some (v, hist))
    (hrep : Rep h p addrs (settle envName hist))
    (hf : Frame st.heap h fun _ => False)
    (hnew : ∀ a ∈ p :: addrs, st.heap.next ≤ a) :
    Inv { heap := h, vecs := st.vecs ++ [(p, hist)] }
      (Function.update own st.vecs.length addrs) := by
  -- a vector of the new state is an old one, or the copy
  have hcases : ∀ {j w hist'},
      (st.vecs ++ [(p, hist)])[j]? = some (w, hist') →
      (j ≠ st.vecs.length ∧ st.vecs[j]? = some (w, hist'))
        ∨ (j = st.vecs.length ∧ w = p ∧ hist' = hist) := by
    intro j w hist' hj
    rw [List.getElem?_append] at hj
    split at hj
    · next hlt => exact Or.inl ⟨by omega, hj⟩
    · next hge =>
      obtain ⟨hlt, hget⟩ := List.getElem?_eq_some_iff.mp hj
      rw [List.length_singleton] at hlt
      have hj0 : j = st.vecs.length := by omega
      subst hj0
      simp only [Nat.sub_self, List.getElem_cons_zero] at hget
      injection hget with hw hhist
      exact Or.inr ⟨rfl, hw.symm, hhist.symm⟩
  have hother : ∀ {j w hist'}, st.vecs[j]? = some (w, hist') →
      ∀ a ∈ w :: own j, a ∉ p :: addrs := by
    intro j w hist' hj a ha hmem
    have := (hinv.rep hj).lt_next ha
    have := hnew a hmem
    omega
  refine ⟨?_, ?_, ?_⟩
  · intro j w hist' hj
    rcases hcases hj with ⟨hne, hj⟩ | ⟨rfl, rfl, rfl⟩
    · rw [Function.update_of_ne hne]
      exact (hinv.rep hj).frame hf fun _ _ hS => hS
    · rw [Function.update_self]
      exact hrep
  · intro j w hist' hj
    rcases hcases hj with ⟨-, hj⟩ | ⟨-, -, rfl⟩
    · exact hinv.legal hj
    · exact hinv.legal hk
  · intro i j w w' hist1 hist2 hij hi hj a ha hmem
    rcases hcases hi with ⟨hine, hi'⟩ | ⟨rfl, rfl, -⟩
    · rw [Function.update_of_ne hine] at ha
      rcases hcases hj with ⟨hjne, hj'⟩ | ⟨rfl, rfl, -⟩
      · rw [Function.update_of_ne hjne] at hmem
        exact hinv.disjoint hij hi' hj' a ha hmem
      · rw [Function.update_self] at hmem
        exact hother hi' a ha hmem
    · rw [Function.update_self] at ha
      rcases hcases hj with ⟨hjne, hj'⟩ | ⟨rfl, -, -⟩
      · rw [Function.update_of_ne hjne] at hmem
        exact hother hj' a hmem ha
      · exact absurd rfl hij

-- ============================================================ one call

/-- What one call does: it fails for want of memory and changes nothing,
or it keeps the invariant and every vector it does not set. -/
structure StepShows (st : EnvRun) (own : Nat → List Nat) (op : EnvOp) :
    Prop where
  inv : ∃ own', Inv (st.step op).2 own'
    ∧ ∀ k < st.vecs.length, ¬ op.Sets k → own' k = own k
  other : ∀ {k : Nat} {r : Nat × List CString}, st.vecs[k]? = some r →
    ¬ op.Sets k → (st.step op).2.vecs[k]? = some r
  failed : (st.step op).1 = none →
    (st.step op).2.vecs = st.vecs
      ∧ Frame st.heap (st.step op).2.heap (fun _ => False)
      ∧ (op.vector < st.vecs.length → ∃ n, st.heap.granted n = false)

theorem step_set (hinv : Inv st own) (k : Nat) {s : CString}
    (hs : equals ∈ s.bytes) : StepShows st own (.set k s) := by
  cases hk : st.vecs[k]? with
  | none =>
      have hstep : st.step (.set k s) = (none, st) := by
        simp only [step, hk]
      refine ⟨?_, ?_, ?_⟩
      · rw [hstep]
        exact ⟨own, hinv, fun _ _ _ => rfl⟩
      · intro j r hj _
        rw [hstep]
        exact hj
      · intro _
        rw [hstep]
        refine ⟨rfl, Frame.refl _ _, fun hlt => ?_⟩
        rw [List.getElem?_eq_none_iff] at hk
        exact absurd hlt (Nat.not_lt.mpr hk)
  | some r =>
      obtain ⟨v, hist⟩ := r
      rcases envSet_spec (hinv.rep hk) (nodup_settle hist) s with
        ⟨h, hset, hf, hno⟩ | ⟨v', h, addrs, hset, hrep, hf, hnew⟩
      · have hstep : st.step (.set k s) = (none, { st with heap := h }) := by
          simp only [step, hk, hset]
        refine ⟨?_, ?_, ?_⟩
        · rw [hstep]
          exact ⟨own, hinv.frame hf, fun _ _ _ => rfl⟩
        · intro j r hj _
          rw [hstep]
          exact hj
        · intro _
          rw [hstep]
          exact ⟨rfl, hf, fun _ => hno⟩
      · have hstep : st.step (.set k s) = (some v',
            { heap := h, vecs := st.vecs.set k (v', hist ++ [s]) }) := by
          simp only [step, hk, hset]
        refine ⟨?_, ?_, ?_⟩
        · rw [hstep]
          refine ⟨_, hinv.set hk hs hrep hf hnew, ?_⟩
          intro j _ hj
          exact Function.update_of_ne (fun hc => hj hc.symm) _ _
        · intro j r hj hne
          rw [hstep]
          show (st.vecs.set k (v', hist ++ [s]))[j]? = some r
          rw [List.getElem?_set_ne hne]
          exact hj
        · intro hnone
          rw [hstep] at hnone
          cases hnone

theorem step_copy (hinv : Inv st own) (k : Nat) :
    StepShows st own (.copy k) := by
  cases hk : st.vecs[k]? with
  | none =>
      have hstep : st.step (.copy k) = (none, st) := by
        simp only [step, hk]
      refine ⟨?_, ?_, ?_⟩
      · rw [hstep]
        exact ⟨own, hinv, fun _ _ _ => rfl⟩
      · intro j r hj _
        rw [hstep]
        exact hj
      · intro _
        rw [hstep]
        refine ⟨rfl, Frame.refl _ _, fun hlt => ?_⟩
        rw [List.getElem?_eq_none_iff] at hk
        exact absurd hlt (Nat.not_lt.mpr hk)
  | some r =>
      obtain ⟨v, hist⟩ := r
      rcases envCopy_spec (hinv.rep hk) with
        ⟨h, hcopy, hf, hno⟩ | ⟨p, h, addrs, hcopy, hrep, hf, hnew⟩
      · have hstep : st.step (.copy k) = (none, { st with heap := h }) := by
          simp only [step, hk, hcopy]
        refine ⟨?_, ?_, ?_⟩
        · rw [hstep]
          exact ⟨own, hinv.frame hf, fun _ _ _ => rfl⟩
        · intro j r hj _
          rw [hstep]
          exact hj
        · intro _
          rw [hstep]
          exact ⟨rfl, hf, fun _ => hno⟩
      · have hstep : st.step (.copy k) = (some p,
            { heap := h, vecs := st.vecs ++ [(p, hist)] }) := by
          simp only [step, hk, hcopy]
        refine ⟨?_, ?_, ?_⟩
        · rw [hstep]
          refine ⟨_, hinv.copy hk hrep hf hnew, ?_⟩
          intro j hj _
          exact Function.update_of_ne (by omega) _ _
        · intro j r hj _
          rw [hstep]
          show (st.vecs ++ [(p, hist)])[j]? = some r
          rw [List.getElem?_append_left
            (List.getElem?_eq_some_iff.mp hj).1]
          exact hj
        · intro hnone
          rw [hstep] at hnone
          cases hnone

theorem step_shows (hinv : Inv st own) {op : EnvOp} (hop : op.Legal) :
    StepShows st own op := by
  cases op with
  | set k s => exact step_set hinv k hop
  | copy k => exact step_copy hinv k

/-- Calls that do not set a vector leave it, and its blocks, as they
are. -/
theorem run_other (hinv : Inv st own) {ops : List EnvOp} {k : Nat}
    {r : Nat × List CString} (hk : st.vecs[k]? = some r)
    (hops : ∀ op ∈ ops, op.Legal ∧ ¬ op.Sets k) :
    ∃ own', Inv (st.run ops) own' ∧ own' k = own k
      ∧ (st.run ops).vecs[k]? = some r := by
  induction ops generalizing st own with
  | nil => exact ⟨own, hinv, rfl, hk⟩
  | cons op ops ih =>
      obtain ⟨hlegal, hsets⟩ := hops op List.mem_cons_self
      have hstep := step_shows hinv hlegal
      obtain ⟨own1, hinv1, hown1⟩ := hstep.inv
      have hklt := (List.getElem?_eq_some_iff.mp hk).1
      obtain ⟨own2, hinv2, hown2, hk2⟩ :=
        ih hinv1 (hstep.other hk hsets)
          fun op' hmem => hops op' (List.mem_cons_of_mem op hmem)
      exact ⟨own2, hinv2, hown2.trans (hown1 k hklt hsets), hk2⟩

theorem run_inv (hinv : Inv st own) {ops : List EnvOp}
    (hops : ∀ op ∈ ops, op.Legal) :
    ∃ own', Inv (st.run ops) own' := by
  induction ops generalizing st own with
  | nil => exact ⟨own, hinv⟩
  | cons op ops ih =>
      obtain ⟨own1, hinv1, -⟩ :=
        (step_shows hinv (hops op List.mem_cons_self)).inv
      exact ih hinv1 fun op' hmem => hops op' (List.mem_cons_of_mem op hmem)

-- ============================================================= the map

/-- A vector reads as the map of its history: it is `NULL`-terminated
and holds one string for each name set, in the order of first setting,
and `env_get` gives the value of the last string with the name. -/
structure MapOf (h : CHeap) (v : Nat) (addrs : List Nat)
    (l hist : List CString) : Prop where
  rep : Rep h v addrs l
  names : l.map envName = (hist.map envName).reverse.dedup.reverse
  last : ∀ s ∈ l, hist.reverse.find? (fun t => decide (envName t = envName s))
    = some s
  get : ∀ name, envGet h name v
    = (hist.reverse.find? fun s => decide (envName s = name)).map envValue

theorem Inv.mapOf (hinv : Inv st own) {k v : Nat} {hist : List CString}
    (hk : st.vecs[k]? = some (v, hist)) :
    MapOf st.heap v (own k) (settle envName hist) hist := by
  refine ⟨hinv.rep hk, map_key_settle hist, ?_, ?_⟩
  · intro s hs
    rw [← find_settle]
    exact find_self (nodup_settle hist) hs
  · intro name
    rw [envGet_eq (hinv.rep hk) (hinv.legal_settle hk), lookup, find_settle]

/-- A copy that succeeds is a new vector with its source's history. -/
theorem step_copy_vecs {k v p : Nat} {hist : List CString}
    (hk : st.vecs[k]? = some (v, hist))
    (hp : (st.step (.copy k)).1 = some p) :
    (st.step (.copy k)).2.vecs = st.vecs ++ [(p, hist)] := by
  simp only [step, hk] at hp ⊢
  cases hcopy : envCopy st.heap v with
  | mk r h =>
      rw [hcopy] at hp
      cases r with
      | none => cases hp
      | some q =>
          injection hp with hp
          rw [← hp]

/-- The states of all runs from `env_init`, with any fate of the
allocations. -/
def Reachable (st : EnvRun) : Prop :=
  ∃ h0 h v0 ops, envInit h0 = (some v0, h)
    ∧ (∀ op ∈ ops, EnvOp.Legal op) ∧ st = (init h v0).run ops

/-- Environment vectors over all runs: every vector is the map of its
history; a call that returns `NULL` leaves every block as it was, and
only does so if an allocation failed; a copy holds what its source
holds; and calls on other vectors leave a vector's blocks and strings
alone. -/
theorem vectors_are_maps (hst : Reachable st) :
    (∀ (k v : Nat) (hist : List CString),
      st.vecs[k]? = some (v, hist) →
      ∃ addrs l, MapOf st.heap v addrs l hist)
    ∧ (∀ op : EnvOp, op.Legal → (st.step op).1 = none →
      (st.step op).2.vecs = st.vecs
        ∧ (∀ a < st.heap.next,
          (st.step op).2.heap.block a = st.heap.block a)
        ∧ (op.vector < st.vecs.length → ∃ n, st.heap.granted n = false))
    ∧ (∀ (k v p : Nat) (hist : List CString),
      st.vecs[k]? = some (v, hist) → (st.step (.copy k)).1 = some p →
      ∃ addrs copied l,
        MapOf (st.step (.copy k)).2.heap v addrs l hist
          ∧ MapOf (st.step (.copy k)).2.heap p copied l hist)
    ∧ (∀ (k v : Nat) (hist : List CString) (later : List EnvOp),
      st.vecs[k]? = some (v, hist) →
      (∀ op ∈ later, op.Legal ∧ ¬ op.Sets k) →
      ∃ addrs l, MapOf st.heap v addrs l hist
        ∧ (st.run later).vecs[k]? = some (v, hist)
        ∧ MapOf (st.run later).heap v addrs l hist) := by
  obtain ⟨h0, h, v0, ops, hinit, hops, rfl⟩ := hst
  obtain ⟨own, hinv⟩ := run_inv (inv_init hinit) hops
  generalize (init h v0).run ops = st at hinv
  refine ⟨?_, ?_, ?_, ?_⟩
  · intro k v hist hk
    exact ⟨_, _, hinv.mapOf hk⟩
  · intro op hop hnone
    obtain ⟨hvecs, hf, hno⟩ := (step_shows hinv hop).failed hnone
    exact ⟨hvecs, fun a ha => hf.keep a ha fun hS => hS, hno⟩
  · intro k v p hist hk hp
    have hstep := step_copy hinv k
    obtain ⟨own', hinv', -⟩ := hstep.inv
    have hk' := hstep.other hk fun hS => hS
    have hnew : (st.step (.copy k)).2.vecs[st.vecs.length]?
        = some (p, hist) := by
      rw [step_copy_vecs hk hp, List.getElem?_append_right (Nat.le_refl _),
        Nat.sub_self]
      rfl
    exact ⟨_, _, _, hinv'.mapOf hk', hinv'.mapOf hnew⟩
  · intro k v hist later hk hlater
    obtain ⟨own', hinv', hown, hk'⟩ := run_other hinv hk hlater
    refine ⟨_, _, hinv.mapOf hk, hk', ?_⟩
    rw [← hown]
    exact hinv'.mapOf hk'

/-- `A=1`, copied, then `A=2` set in the copy. -/
def copiedRun : EnvRun :=
  (init (envInit (Heap.empty fun _ => true)).2 0).run
    [.set 0 (CString.ofString "A=1"), .copy 0,
     .set 1 (CString.ofString "A=2")]

theorem copiedRun_reachable : Reachable copiedRun := by
  refine ⟨Heap.empty fun _ => true, _, 0, _, rfl, ?_, rfl⟩
  intro op hop
  simp only [List.mem_cons, List.not_mem_nil, or_false] at hop
  rcases hop with rfl | rfl | rfl
  · show equals ∈ (CString.ofString "A=1").bytes
    decide
  · trivial
  · show equals ∈ (CString.ofString "A=2").bytes
    decide

/-- The copy has the new value, its source the old one. -/
theorem copiedRun_values :
    envGet copiedRun.heap (bytes "A") 2 = some (bytes "1")
      ∧ envGet copiedRun.heap (bytes "A") 3 = some (bytes "2") := by
  obtain ⟨hmaps, -⟩ := vectors_are_maps copiedRun_reachable
  obtain ⟨_, _, hsource⟩ :=
    hmaps 0 2 [CString.ofString "A=1"] (by decide +kernel)
  obtain ⟨_, _, hcopy⟩ :=
    hmaps 1 3 [CString.ofString "A=1", CString.ofString "A=2"]
      (by decide +kernel)
  rw [hsource.get, hcopy.get]
  decide +kernel

end EnvRun

end Tinjac
