import EmbraOS.Verified.Machine
import Mathlib

/-!
# The vector index and its reloads

Port of `VectorIndex` and `ensure_current` (`embra-brain/src/embedding/cache.rs`), with the
documents whose vectors it holds.  One provider serves the process, so the model is left out: a
document's vector is one of the current model that decodes.  A reload reads with no lock held;
between its steps anything else may happen.

A write of a document is followed by its write-through to the index.  `Calm` says which runs keep
the index true: see `index_true_of_calm`, the main result.
-/

namespace EmbraOS.Ports.EmbeddingCache

open Verified

inductive Coll where
  | semantic
  | procedural
  deriving DecidableEq, Repr

structure Key where
  coll : Coll
  id : String
  deriving DecidableEq, Repr

abbrev Counts := Coll → Nat

/-- A write-through. -/
inductive Touch (V : Type) where
  | upsert (vector : V) (newDocument : Bool)
  | remove
  deriving DecidableEq, Repr

variable {V : Type}

def Touch.value : Touch V → Option V
  | .upsert v _ => some v
  | .remove => none

/-! ## The index -/

structure VectorIndex (V : Type) where
  vecs : Key → Option V := fun _ => none
  counts : Counts := fun _ => 0
  loaded : Bool := false
  reloading : Bool := false
  touched : List (Key × Touch V) := []

/-- `HashMap::insert`. -/
def record (k : Key) (t : Touch V) (touched : List (Key × Touch V)) : List (Key × Touch V) :=
  (k, t) :: touched.filter fun e => e.1 ≠ k

namespace VectorIndex

def beginReload (idx : VectorIndex V) : VectorIndex V :=
  { idx with reloading := true, touched := [] }

def applyUpsert (idx : VectorIndex V) (k : Key) (v : V) (newDocument : Bool) : VectorIndex V :=
  if idx.loaded then
    { idx with
      touched :=
        if idx.reloading then record k (.upsert v newDocument) idx.touched else idx.touched
      vecs := Function.update idx.vecs k (some v)
      counts :=
        if newDocument then Function.update idx.counts k.coll (idx.counts k.coll + 1)
        else idx.counts }
  else idx

def applyRemove (idx : VectorIndex V) (k : Key) : VectorIndex V :=
  { idx with
    touched :=
      if idx.reloading && ((idx.vecs k).isSome || (idx.touched.lookup k).isSome) then
        record k .remove idx.touched
      else idx.touched
    vecs := Function.update idx.vecs k none
    counts :=
      if (idx.vecs k).isSome then Function.update idx.counts k.coll (idx.counts k.coll - 1)
      else idx.counts }

end VectorIndex

/-- What a reload read. -/
structure Loaded (V : Type) where
  vecs : Key → Option V
  counts : Counts

def mergeTouch (l : Loaded V) (e : Key × Touch V) : Loaded V :=
  { vecs := Function.update l.vecs e.1 e.2.value
    counts :=
      match e.2 with
      | .upsert _ newDocument =>
        if newDocument then Function.update l.counts e.1.coll (l.counts e.1.coll + 1)
        else l.counts
      | .remove =>
        if (l.vecs e.1).isSome then Function.update l.counts e.1.coll (l.counts e.1.coll - 1)
        else l.counts }

def VectorIndex.commitReload (idx : VectorIndex V) (loaded : Loaded V) : VectorIndex V :=
  let l := if idx.loaded then idx.touched.foldl mergeTouch loaded else loaded
  { vecs := l.vecs, counts := l.counts, loaded := true, reloading := false, touched := [] }

/-! ## The system -/

/-- `MEMORY_FETCH_WINDOW`: how many documents of a collection a reload reads. -/
def fetchWindow : Nat := 10000

/-- A reload between its begin and its commit. -/
structure Reload (V : Type) where
  counts : Counts
  fetched : Coll → Option (String → Option V) := fun _ => none

/-- The collection that is read next. -/
def Reload.next (r : Reload V) : Option Coll :=
  if (r.fetched .semantic).isNone then some .semantic
  else if (r.fetched .procedural).isNone then some .procedural
  else none

structure System (V : Type) where
  /-- The stored documents, each with its vector if it has one. -/
  docs : Key → Option (Option V)
  live : Counts
  index : VectorIndex V := {}
  /-- Calls that found the index behind, with the counts they read. -/
  waiting : List Counts := []
  /-- The reloads in flight, the last begun first. -/
  inflight : List (Reload V) := []
  /-- The write-throughs still to come. -/
  pending : Key → Option (Touch V) := fun _ => none

/-- The stored vector of a document. -/
def System.vector (s : System V) (k : Key) : Option V := (s.docs k).join

inductive Action (V : Type) where
  /-- A document without a vector is stored. -/
  | create (k : Key)
  /-- A vector is stored with a document. -/
  | embed (k : Key) (v : V) (newDocument : Bool)
  | delete (k : Key)
  /-- The write-through of the last write of a document. -/
  | through (k : Key)
  /-- `ensure_current` reads the counts and compares. -/
  | check
  | begin (i : Nat)
  /-- A reload reads its next collection, without the documents past the window. -/
  | fetch (i : Nat) (missed : List String)
  | commit (i : Nat)

def write (s : System V) (k : Key) (t : Touch V) : VectorIndex V :=
  match t with
  | .upsert v newDocument => s.index.applyUpsert k v newDocument
  | .remove => s.index.applyRemove k

def Reload.read (r : Reload V) (s : System V) (c : Coll) (missed : List String) : Reload V :=
  { r with
    fetched := Function.update r.fetched c
      (some fun id => if id ∈ missed then none else s.vector ⟨c, id⟩) }

def step (s : System V) : Action V → Option (System V)
  | .create k =>
    if (s.docs k).isNone then
      some { s with
        docs := Function.update s.docs k (some none)
        live := Function.update s.live k.coll (s.live k.coll + 1) }
    else none
  | .embed k v newDocument =>
    if (s.docs k).isSome then
      some { s with
        docs := Function.update s.docs k (some (some v))
        pending := Function.update s.pending k (some (.upsert v newDocument)) }
    else none
  | .delete k =>
    if (s.docs k).isSome then
      some { s with
        docs := Function.update s.docs k none
        live := Function.update s.live k.coll (s.live k.coll - 1)
        pending := Function.update s.pending k (some .remove) }
    else none
  | .through k =>
    match s.pending k with
    | some t =>
      some { s with index := write s k t, pending := Function.update s.pending k none }
    | none => none
  | .check =>
    if s.index.loaded ∧ ∀ c ∈ [Coll.semantic, .procedural], s.index.counts c = s.live c then some s
    else some { s with waiting := s.live :: s.waiting }
  | .begin i =>
    match s.waiting[i]? with
    | some counts =>
      some { s with
        index := s.index.beginReload
        waiting := s.waiting.eraseIdx i
        inflight := { counts := counts } :: s.inflight }
    | none => none
  | .fetch i missed =>
    match s.inflight[i]? with
    | some r =>
      match r.next with
      | some c =>
        if s.live c ≤ fetchWindow ∧ missed ≠ [] then none
        else some { s with inflight := s.inflight.set i (r.read s c missed) }
      | none => none
    | none => none
  | .commit i =>
    match s.inflight[i]? with
    | some r =>
      match r.fetched .semantic, r.fetched .procedural with
      | some sem, some proc =>
        some { s with
          index := s.index.commitReload
            ⟨fun k => if k.coll = .semantic then sem k.id else proc k.id, r.counts⟩
          inflight := s.inflight.eraseIdx i }
      | _, _ => none
    | none => none

/-- A new process over stored documents. -/
def start (docs : Key → Option (Option V)) (live : Counts) : System V :=
  { docs := docs, live := live }

/-! ## Calm runs -/

/-- A document is written when the write-through of its last write is done.  A write-through does
not land while a reload has read its collection, unless that is the only reload in flight and the
index is loaded and recording.  A reload that begins or commits while another is in flight finds
nothing recorded.  No collection that is read outgrows the window. -/
def Calm (s : System V) : Action V → Prop
  | .create k | .embed k _ _ | .delete k => s.pending k = none
  | .through k => (∃ r ∈ s.inflight, (r.fetched k.coll).isSome) →
      s.index.loaded = true ∧ s.index.reloading = true ∧ s.inflight.length = 1
  | .check => True
  | .begin _ => s.inflight ≠ [] → s.index.touched = []
  | .fetch i _ => ∀ r ∈ s.inflight[i]?, ∀ c ∈ r.next, s.live c ≤ fetchWindow
  | .commit _ => 1 < s.inflight.length → s.index.touched = []

/-- Beside the pending write-throughs, the index holds the stored vectors, and so does what each
reload in flight has read with the record on top. -/
structure Inv (s : System V) : Prop where
  known : ∀ k t, s.pending k = some t → t.value = s.vector k
  vecs : s.index.loaded = true → ∀ k, s.pending k = none → s.index.vecs k = s.vector k
  unloaded : s.index.loaded = false → ∀ k, s.index.vecs k = none
  touched : ∀ k t, s.index.touched.lookup k = some t → s.pending k = none → t.value = s.vector k
  idle : s.index.loaded = false ∨ s.index.reloading = false → s.index.touched = []
  nodup : (s.index.touched.map Prod.fst).Nodup
  fetched : ∀ r ∈ s.inflight, ∀ k read, r.fetched k.coll = some read → s.pending k = none →
    s.index.touched.lookup k = none → read k.id = s.vector k
  /-- A deletion that the last begun reload has not seen will be recorded. -/
  newest : ∀ r rest, s.inflight = r :: rest → s.index.loaded = true → s.index.reloading = true →
    ∀ k read, r.fetched k.coll = some read → s.pending k = some .remove →
      (s.index.vecs k).isSome ∨ (s.index.touched.lookup k).isSome ∨ read k.id = none

/-! ## The record of a reload -/

section Record

variable {k k' : Key} {t : Touch V} {touched : List (Key × Touch V)}

theorem lookup_record_self : (record k t touched).lookup k = some t := by
  simp [record]

theorem lookup_record_ne (h : k' ≠ k) : (record k t touched).lookup k' = touched.lookup k' := by
  rw [record, List.lookup_cons, beq_false_of_ne h]
  simp only
  induction touched with
  | nil => rfl
  | cons e touched ih =>
    by_cases he : e.1 = k
    · rw [List.filter_cons_of_neg (by simp [he]), ih, List.lookup_cons,
        beq_false_of_ne (fun heq => h (heq.trans he))]
    · rw [List.filter_cons_of_pos (by simp [he]), List.lookup_cons, List.lookup_cons, ih]

theorem nodup_record (h : (touched.map Prod.fst).Nodup) :
    ((record k t touched).map Prod.fst).Nodup := by
  rw [record, List.map_cons, List.nodup_cons]
  refine ⟨?_, h.sublist (List.filter_sublist.map Prod.fst)⟩
  simp

/-- A commit takes the record where there is one, and what was read elsewhere. -/
theorem vecs_foldl_mergeTouch (h : (touched.map Prod.fst).Nodup) :
    ∀ l : Loaded V, (touched.foldl mergeTouch l).vecs k =
      ((touched.lookup k).map Touch.value).getD (l.vecs k) := by
  induction touched with
  | nil => exact fun l => rfl
  | cons e touched ih =>
    intro l
    obtain ⟨hnew, hrest⟩ := List.nodup_cons.1 h
    rw [List.foldl_cons, ih hrest, List.lookup_cons]
    by_cases hk : k = e.1
    · have hnone : touched.lookup k = none := by
        rw [List.lookup_eq_none_iff]
        intro e' he'
        rw [bne_iff_ne, hk]
        exact fun heq => hnew (heq ▸ List.mem_map_of_mem he')
      rw [hnone, hk, beq_self_eq_true]
      simp [mergeTouch]
    · rw [beq_false_of_ne hk]
      simp [mergeTouch, Function.update_of_ne hk]

end Record

/-! ## Steps keep the index true -/

section Steps

variable {s s' : System V} {k : Key} {t : Touch V}

variable (h : Inv s)
include h

/-- What a write-through does to the index, and when it is recorded. -/
theorem write_spec (k : Key) (t : Touch V) :
    (write s k t).loaded = s.index.loaded ∧ (write s k t).reloading = s.index.reloading ∧
      (∀ k', k' ≠ k → (write s k t).vecs k' = s.index.vecs k') ∧
      (s.index.loaded = true → (write s k t).vecs k = t.value) ∧
      (s.index.loaded = false → (write s k t).vecs k = none) ∧
      ((s.index.loaded = true ∧ s.index.reloading = true ∧
          (write s k t).touched = record k t s.index.touched) ∨
        (write s k t).touched = s.index.touched ∧
          (s.index.loaded = false ∨ s.index.reloading = false ∨
            t = .remove ∧ s.index.vecs k = none ∧ s.index.touched.lookup k = none)) := by
  cases t with
  | upsert v newDocument =>
    cases hloaded : s.index.loaded with
    | false => simp [write, VectorIndex.applyUpsert, hloaded, h.unloaded hloaded]
    | true =>
      cases hreloading : s.index.reloading <;>
        simp +contextual [write, VectorIndex.applyUpsert, hloaded, hreloading, Touch.value,
          Function.update_of_ne]
  | remove =>
    have hvecs : ∀ k', k' ≠ k → (write s k .remove).vecs k' = s.index.vecs k' :=
      fun k' hne => Function.update_of_ne hne _ _
    have hself : (write s k .remove).vecs k = none := Function.update_self ..
    refine ⟨rfl, rfl, hvecs, fun _ => hself, fun _ => hself, ?_⟩
    simp only [write, VectorIndex.applyRemove]
    split
    · rename_i hrecord
      simp only [Bool.and_eq_true, Bool.or_eq_true] at hrecord
      have hloaded : s.index.loaded = true := by
        by_contra hno
        rw [Bool.not_eq_true] at hno
        simp [h.unloaded hno, h.idle (.inl hno)] at hrecord
      exact .inl ⟨hloaded, hrecord.1, rfl⟩
    · rename_i hrecord
      refine .inr ⟨rfl, ?_⟩
      cases hreloading : s.index.reloading with
      | false => exact .inr (.inl rfl)
      | true =>
        simp only [hreloading, Bool.true_and, Bool.or_eq_true, not_or, Bool.not_eq_true,
          Option.isSome_eq_false_iff, Option.isNone_iff_eq_none] at hrecord
        exact .inr (.inr ⟨trivial, hrecord⟩)

theorem Inv.through (hp : s.pending k = some t) (hcalm : Calm s (.through k)) :
    Inv { s with index := write s k t, pending := Function.update s.pending k none } := by
  obtain ⟨hloaded, hreloading, hvecs, hself, hunloaded, htouched⟩ := write_spec h k t
  have hvalue := h.known k t hp
  have hpending : ∀ {k' : Key} {p : Option (Touch V)}, k' ≠ k →
      Function.update s.pending k none k' = p → s.pending k' = p := by
    intro k' p hne hp'
    rwa [Function.update_of_ne hne] at hp'
  have hlookup : ∀ k', k' ≠ k → (write s k t).touched.lookup k' = s.index.touched.lookup k' := by
    intro k' hne
    rcases htouched with ⟨-, -, heq⟩ | ⟨heq, -⟩
    · rw [heq, lookup_record_ne hne]
    · rw [heq]
  refine
    { known := ?_, vecs := ?_, unloaded := ?_, touched := ?_, idle := ?_, nodup := ?_,
      fetched := ?_, newest := ?_ }
  · intro k' t' hp'
    by_cases hk : k' = k
    · subst hk
      simp at hp'
    · exact h.known k' t' (hpending hk hp')
  · intro hl k' hp'
    rw [hloaded] at hl
    by_cases hk : k' = k
    · rw [hk, hself hl, hvalue]
      rfl
    · rw [hvecs k' hk, h.vecs hl k' (hpending hk hp')]
      rfl
  · intro hl k'
    rw [hloaded] at hl
    by_cases hk : k' = k
    · rw [hk, hunloaded hl]
    · rw [hvecs k' hk, h.unloaded hl k']
  · intro k' t' hlook hp'
    by_cases hk : k' = k
    · subst hk
      rcases htouched with ⟨-, -, heq⟩ | ⟨heq, hcase⟩
      · rw [heq, lookup_record_self] at hlook
        cases hlook
        exact hvalue
      · rw [heq] at hlook
        rcases hcase with hno | hno | ⟨-, -, hnone⟩
        · simp [h.idle (.inl hno)] at hlook
        · simp [h.idle (.inr hno)] at hlook
        · rw [hnone] at hlook
          cases hlook
    · exact h.touched k' t' (hlookup k' hk ▸ hlook) (hpending hk hp')
  · intro hno
    rw [hloaded, hreloading] at hno
    rcases htouched with ⟨hl, hr, -⟩ | ⟨heq, -⟩
    · simp [hl, hr] at hno
    · rw [heq]
      exact h.idle hno
  · rcases htouched with ⟨-, -, heq⟩ | ⟨heq, -⟩
    · rw [heq]
      exact nodup_record h.nodup
    · rw [heq]
      exact h.nodup
  · intro r hr k' read hread hp' hlook
    by_cases hk : k' = k
    · -- a write-through that is not recorded: a deletion the only reload has seen
      subst hk
      obtain ⟨hl, hrec, hlen⟩ := hcalm ⟨r, hr, by rw [hread]; rfl⟩
      rcases htouched with ⟨-, -, heq⟩ | ⟨-, hcase⟩
      · rw [heq, lookup_record_self] at hlook
        cases hlook
      rcases hcase with hno | hno | ⟨rfl, hnone, hnolook⟩
      · rw [hl] at hno
        cases hno
      · rw [hrec] at hno
        cases hno
      · obtain ⟨r', heq⟩ := List.length_eq_one_iff.1 hlen
        have hrr : r = r' := by simpa [heq] using hr
        rcases h.newest r' [] heq hl hrec k' read (hrr ▸ hread) hp with hs | hs | hs
        · simp [hnone] at hs
        · simp [hnolook] at hs
        · rw [hs]
          exact hvalue
    · exact h.fetched r hr k' read hread (hpending hk hp') (hlookup k' hk ▸ hlook)
  · intro r rest heq hl hr k' read hread hp'
    rw [hloaded] at hl
    rw [hreloading] at hr
    by_cases hk : k' = k
    · subst hk
      simp at hp'
    · rw [hvecs k' hk, hlookup k' hk]
      exact h.newest r rest heq hl hr k' read hread (hpending hk hp')

/-- A change that leaves the vectors, the write-throughs, the index and the reloads. -/
theorem Inv.of_vector (hvector : ∀ k, s'.vector k = s.vector k)
    (hindex : s'.index = s.index) (hinflight : s'.inflight = s.inflight)
    (hpending : s'.pending = s.pending) : Inv s' := by
  obtain ⟨known, vecs, unloaded, touched, idle, nodup, fetched, newest⟩ := h
  constructor <;> simpa only [hvector, hindex, hinflight, hpending]

theorem Inv.create (hnone : s.docs k = none) (live : Counts) :
    Inv { s with docs := Function.update s.docs k (some none), live := live } := by
  refine h.of_vector (fun k' => ?_) rfl rfl rfl
  by_cases hk : k' = k
  · simp [System.vector, hk, hnone]
  · simp [System.vector, Function.update_of_ne hk]

/-- A document is written; its write-through is still to come. -/
theorem Inv.write (hcalm : s.pending k = none) {d : Option (Option V)}
    (hvalue : t.value = d.join) (live : Counts) :
    Inv { s with
      docs := Function.update s.docs k d
      live := live
      pending := Function.update s.pending k (some t) } := by
  -- the other documents, and what is pending for them
  have hother : ∀ {k' : Key}, k' ≠ k → (Function.update s.docs k d k').join = s.vector k' := by
    intro k' hne
    rw [Function.update_of_ne hne]
    rfl
  have hpending : ∀ {k' : Key} {p : Option (Touch V)}, k' ≠ k →
      Function.update s.pending k (some t) k' = p → s.pending k' = p := by
    intro k' p hne hp
    rwa [Function.update_of_ne hne] at hp
  have hne : ∀ {k' : Key}, Function.update s.pending k (some t) k' = none → k' ≠ k := by
    rintro k' hp rfl
    simp at hp
  refine { h with known := ?_, vecs := ?_, touched := ?_, fetched := ?_, newest := ?_ }
  · intro k' t' hp
    by_cases hk : k' = k
    · subst hk
      have heq : t = t' := by simpa using hp
      simp [System.vector, ← heq, hvalue]
    · exact (h.known k' t' (hpending hk hp)).trans (hother hk).symm
  · intro hl k' hp
    exact (h.vecs hl k' (hpending (hne hp) hp)).trans (hother (hne hp)).symm
  · intro k' t' hlook hp
    exact (h.touched k' t' hlook (hpending (hne hp) hp)).trans (hother (hne hp)).symm
  · intro r hr k' read hread hp hlook
    exact (h.fetched r hr k' read hread (hpending (hne hp) hp) hlook).trans (hother (hne hp)).symm
  · intro r rest heq hl hr k' read hread hp
    by_cases hk : k' = k
    · subst hk
      by_cases hlook : s.index.touched.lookup k' = none
      · -- what was read is what the index holds
        have hsame : read k'.id = s.index.vecs k' := by
          rw [h.vecs hl k' hcalm]
          exact h.fetched r (heq ▸ List.mem_cons_self) k' read hread hcalm hlook
        rcases Option.eq_none_or_eq_some (s.index.vecs k') with hnone | ⟨v, hv⟩
        · exact .inr (.inr (hsame.trans hnone))
        · exact .inl (by simp [hv])
      · exact .inr (.inl (Option.isSome_iff_ne_none.2 hlook))
    · exact h.newest r rest heq hl hr k' read hread (hpending hk hp)

theorem Inv.begin (hcalm : s.inflight ≠ [] → s.index.touched = []) (counts : Counts)
    (waiting : List Counts) :
    Inv { s with
      index := s.index.beginReload
      waiting := waiting
      inflight := { counts := counts } :: s.inflight } where
  known := h.known
  vecs := h.vecs
  unloaded := h.unloaded
  touched := by
    rintro k t ⟨⟩
  idle := fun _ => rfl
  nodup := List.nodup_nil
  fetched := by
    intro r hr k read hread hp _
    rcases List.mem_cons.1 hr with rfl | hr
    · cases hread
    · refine h.fetched r hr k read hread hp ?_
      rw [hcalm (List.ne_nil_of_mem hr)]
      rfl
  newest := by
    rintro r rest ⟨⟩ _ _ k read ⟨⟩

/-- What a reload reads is what is stored. -/
theorem Inv.fetch {i : Nat} {r : Reload V} (hr : s.inflight[i]? = some r) (c : Coll) :
    Inv { s with inflight := s.inflight.set i (r.read s c []) } := by
  have hread : ∀ {k : Key} {read : String → Option V}, (r.read s c []).fetched k.coll = some read →
      read k.id = s.vector k ∨ r.fetched k.coll = some read := by
    intro k read hk
    by_cases hc : k.coll = c
    · subst hc
      left
      simp only [Reload.read, Function.update_self, Option.some.injEq, List.not_mem_nil,
        if_false] at hk
      rw [← hk]
    · right
      simpa [Reload.read, Function.update_of_ne hc] using hk
  have hmem : r ∈ s.inflight := List.mem_of_getElem? hr
  refine { h with fetched := ?_, newest := ?_ }
  · intro r' hr' k read hk hp hlook
    rcases List.mem_or_eq_of_mem_set hr' with hold | rfl
    · exact h.fetched r' hold k read hk hp hlook
    · rcases hread hk with heq | hk
      · exact heq
      · exact h.fetched r hmem k read hk hp hlook
  · intro r' rest heq hl hrec k read hk hp
    cases i with
    | zero =>
      rcases hs : s.inflight with _ | ⟨r₀, rest₀⟩
      · simp [hs] at hmem
      · rw [hs] at hr
        cases hr
        simp only [hs, List.set_cons_zero, List.cons.injEq] at heq
        obtain ⟨rfl, -⟩ := heq
        rcases hread hk with hval | hk
        · exact .inr (.inr (hval.trans (h.known k _ hp).symm))
        · exact h.newest r rest₀ hs hl hrec k read hk hp
    | succ i =>
      rcases hs : s.inflight with _ | ⟨r₀, rest₀⟩
      · simp [hs] at hmem
      · simp only [hs, List.set_cons_succ, List.cons.injEq] at heq
        exact h.newest r₀ rest₀ hs hl hrec k read (heq.1 ▸ hk) hp

theorem Inv.commit {i : Nat} {r : Reload V} (hr : s.inflight[i]? = some r)
    (hcalm : 1 < s.inflight.length → s.index.touched = []) {sem proc : String → Option V}
    (hsem : r.fetched .semantic = some sem) (hproc : r.fetched .procedural = some proc) :
    Inv { s with
      index := s.index.commitReload
        ⟨fun k => if k.coll = .semantic then sem k.id else proc k.id, r.counts⟩
      inflight := s.inflight.eraseIdx i } := by
  have hmem : r ∈ s.inflight := List.mem_of_getElem? hr
  -- where nothing is recorded, what was read is what is stored
  have hread : ∀ k, s.pending k = none → s.index.touched.lookup k = none →
      (if k.coll = .semantic then sem k.id else proc k.id) = s.vector k := by
    intro k hp hlook
    obtain ⟨c, id⟩ := k
    cases c with
    | semantic => exact h.fetched r hmem ⟨.semantic, id⟩ sem hsem hp hlook
    | procedural => exact h.fetched r hmem ⟨.procedural, id⟩ proc hproc hp hlook
  refine
    { known := h.known, vecs := ?_, unloaded := ?_, touched := ?_, idle := fun _ => rfl,
      nodup := List.nodup_nil, fetched := ?_, newest := ?_ }
  · intro _ k hp
    simp only [VectorIndex.commitReload]
    split
    · rw [vecs_foldl_mergeTouch h.nodup]
      cases hlook : s.index.touched.lookup k with
      | none => exact hread k hp hlook
      | some t => exact h.touched k t hlook hp
    · rename_i hno
      refine hread k hp ?_
      rw [h.idle (.inl (Bool.not_eq_true _ ▸ hno))]
      rfl
  · rintro ⟨⟩
  · rintro k t ⟨⟩
  · intro r' hr' k read hk hp _
    have hlen : 1 < s.inflight.length := by
      have hpos := List.length_pos_of_mem hr'
      have herase := List.length_eraseIdx_le s.inflight i
      have hi : i < s.inflight.length := (List.getElem?_eq_some_iff.1 hr).1
      simp only [List.length_eraseIdx, if_pos hi] at hpos
      omega
    refine h.fetched r' (List.mem_of_mem_eraseIdx hr') k read hk hp ?_
    rw [hcalm hlen]
    rfl
  · rintro _ _ _ _ ⟨⟩

theorem Inv.step (a : Action V) (hcalm : Calm s a) (hs : step s a = some s') :
    Inv s' := by
  cases a with
  | create k =>
    simp only [EmbeddingCache.step, Option.ite_none_right_eq_some, Option.isNone_iff_eq_none] at hs
    obtain ⟨hnone, hs⟩ := hs
    cases hs
    exact h.create hnone _
  | embed | delete =>
    simp only [EmbeddingCache.step, Option.ite_none_right_eq_some] at hs
    obtain ⟨-, hs⟩ := hs
    cases hs
    exact h.write hcalm rfl _
  | through k =>
    simp only [EmbeddingCache.step] at hs
    split at hs
    · cases hs
      exact h.through (by assumption) hcalm
    · cases hs
  | check =>
    simp only [EmbeddingCache.step] at hs
    split at hs
    · cases hs
      exact h
    · cases hs
      exact h.of_vector (fun _ => rfl) rfl rfl rfl
  | begin i =>
    simp only [EmbeddingCache.step] at hs
    split at hs
    · cases hs
      exact h.begin hcalm _ _
    · cases hs
  | fetch i missed =>
    simp only [EmbeddingCache.step] at hs
    split at hs
    · rename_i r hr
      split at hs
      · rename_i c hc
        have hlive : s.live c ≤ fetchWindow := hcalm r hr c hc
        simp only [hlive, true_and, ne_eq, ite_not, Option.ite_none_right_eq_some] at hs
        obtain ⟨rfl, hs⟩ := hs
        cases hs
        exact h.fetch hr c
      · cases hs
    · cases hs
  | commit i =>
    simp only [EmbeddingCache.step] at hs
    split at hs
    · split at hs
      · cases hs
        exact h.commit (by assumption) hcalm (by assumption) (by assumption)
      · cases hs
    · cases hs

end Steps

/-- **The index is true in calm runs.**  From any stored documents, once a reload has committed,
the index holds for each document exactly its stored vector as soon as the write-through of its
last write is done, and nothing for one that is gone or has none. -/
theorem index_true_of_calm (docs : Key → Option (Option V)) (live : Counts) {s : System V}
    (h : Machine.Reaches step Calm (start docs live) s) (hloaded : s.index.loaded = true) (k : Key)
    (hpending : s.pending k = none) : s.index.vecs k = s.vector k := by
  have hstart : Inv (start docs live) := by
    constructor <;> simp [start]
  have hinv : Inv s := h.invariant hstart fun s a s' hinv hcalm hs => hinv.step a hcalm hs
  exact hinv.vecs hloaded k hpending

/-! ## Runs that are not calm -/

def nodeA : Key := ⟨.semantic, "a"⟩

def nodeB : Key := ⟨.semantic, "b"⟩

/-- One document with a vector. -/
def oneDoc : System Nat :=
  start (fun k => if k = nodeA then some (some 1) else none)
    (fun c => if c = .semantic then 1 else 0)

/-- A reload with nothing in between. -/
def firstLoad : List (Action Nat) := [.check, .begin 0, .fetch 0 [], .fetch 0 [], .commit 0]

/-- The state of a run where every document's write-through is done, and what is wrong with it:
the counts agree, so that no call will reload, and the index holds another vector. -/
def Stale (s : System Nat) (k : Key) : Prop :=
  s.inflight = [] ∧ s.index.loaded = true ∧ s.pending nodeA = none ∧ s.pending nodeB = none ∧
    s.index.counts .semantic = s.live .semantic ∧
    s.index.counts .procedural = s.live .procedural ∧ s.index.vecs k ≠ s.vector k

/-- Embedded again between the reads of a second reload and its commit, a document has its new
vector in the index. -/
theorem index_true_of_calm_reload :
    ∃ s, Machine.steps step oneDoc (firstLoad ++ [.create nodeB, .check, .begin 0, .fetch 0 [],
        .fetch 0 [], .embed nodeA 2 false, .through nodeA, .commit 0]) = some s ∧
      s.vector nodeA = some 2 ∧ s.index.vecs nodeA = s.vector nodeA := by
  have hread : Machine.Reaches step Calm oneDoc _ :=
    .step (.fetch 0 []) (.step (.fetch 0 []) (.step (.begin 0) (.step .check .start trivial rfl)
      (fun h => absurd rfl h) rfl) (by rintro r ⟨⟩ c ⟨⟩; decide) rfl)
      (by rintro r ⟨⟩ c ⟨⟩; decide) rfl
  have hloaded : Machine.Reaches step Calm oneDoc _ :=
    .step (.commit 0) hread (fun h => absurd h (by decide)) rfl
  have hbegun : Machine.Reaches step Calm oneDoc _ :=
    .step (.begin 0) (.step .check (.step (.create nodeB) hloaded rfl rfl) trivial rfl)
      (fun h => absurd rfl h) rfl
  have hagain : Machine.Reaches step Calm oneDoc _ :=
    .step (.fetch 0 []) (.step (.fetch 0 []) hbegun (by rintro r ⟨⟩ c ⟨⟩; decide) rfl)
      (by rintro r ⟨⟩ c ⟨⟩; decide) rfl
  have hwritten : Machine.Reaches step Calm oneDoc _ :=
    .step (.through nodeA) (.step (.embed nodeA 2 false) hagain rfl rfl)
      (fun _ => ⟨rfl, rfl, rfl⟩) rfl
  have hdone : Machine.Reaches step Calm oneDoc _ :=
    .step (.commit 0) hwritten (fun h => absurd h (by decide)) rfl
  exact ⟨_, rfl, rfl, index_true_of_calm _ _ hdone rfl nodeA rfl⟩

/-- A document embedded again while the index first loads keeps its old vector there; so does one
embedded again while a reload is in flight during which another begins. -/
theorem embedded_meanwhile_lost :
    (∃ s, Machine.steps step oneDoc [.check, .begin 0, .fetch 0 [], .fetch 0 [],
        .embed nodeA 2 false, .through nodeA, .commit 0] = some s ∧ Stale s nodeA) ∧
      ∃ s, Machine.steps step oneDoc (firstLoad ++ [.create nodeB, .check, .check, .begin 0,
        .fetch 0 [], .fetch 0 [], .embed nodeA 2 false, .through nodeA, .begin 0, .fetch 0 [],
        .fetch 0 [], .commit 0, .commit 0]) = some s ∧ Stale s nodeA := by
  refine ⟨⟨_, rfl, ?_⟩, _, rfl, ?_⟩
  · unfold Stale
    decide
  · unfold Stale
    decide

end EmbraOS.Ports.EmbeddingCache
