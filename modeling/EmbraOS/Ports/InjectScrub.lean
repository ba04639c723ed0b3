import EmbraOS.Ports.InjectScan
import EmbraOS.Verified.Sweep

/-!
# The rewrite in one pass, and marker by marker

`scrub` walks a text once.  `markerByMarker` is what it is to give: cut the text at the directives,
put the replacement in place of each, and then for one structural marker after the other replace
its occurrences in the stretches between.

`scrub_markerByMarker` says that they agree.  The walk over a stretch is a sweep for all markers
(`markersLoop_sweep`), and no marker overlaps another or the replacement (`redactMarkers_apart`).
-/

namespace EmbraOS.Ports.Inject

open Verified
open Verified.Sweep
open Verified.Utf8 (encode strSlice? strSlice?_eq isBoundary)
open Verified.WindowSearch
open Verified.Words

/-! ## Marker by marker -/

/-- The spelling of a marker that a text is compared with. -/
def markOf (m : String) : List UInt8 := (bytes m).map lower

/-- Every occurrence of a marker, in any case, from left to right. -/
def replaceMarker (m : String) (run : List UInt8) : List UInt8 :=
  sweep lower (bytes marker) [markOf m] run

/-- The text cut at the directives. -/
def cutAt (s : List UInt8) : Nat → List Directive → List Piece
  | last, [] => [.text (slice s (last, s.length))]
  | last, hit :: hits => .text (slice s (last, hit.start)) :: .marker :: cutAt s hit.stop hits

def Piece.replace (m : String) : Piece → Piece
  | .text run => .text (replaceMarker m run)
  | .marker => .marker

/-- First the directives, then each marker in the text between them. -/
def markerByMarker (s : List UInt8) (hits : List Directive) : List UInt8 :=
  (redactMarkers.foldl (fun pieces m => pieces.map (Piece.replace m)) (cutAt s 0 hits)).flatMap
    Piece.bytes

/-! ## The markers -/

theorem redactMarkers_ascii : ∀ m ∈ redactMarkers, bytes m ≠ [] ∧ ∀ b ∈ bytes m, b.toNat < 128 := by
  decide +kernel

/-- No marker overlaps another or the replacement. -/
theorem redactMarkers_apart : Apart lower (bytes marker) (redactMarkers.map markOf) where
  ne := by decide +kernel
  replaced := by decide +kernel
  others := by decide +kernel

theorem lower_ascii {b : UInt8} : (lower b).toNat < 128 ↔ b.toNat < 128 := by
  unfold lower
  split
  · rename_i h
    simp only [UInt8.le_iff_toNat_le, UInt8.reduceToNat] at h
    rw [UInt8.toNat_add, show (0x20 : UInt8).toNat = 32 from rfl]
    omega
  · rfl

theorem startsWithCi_iff {hay needle : List UInt8} :
    startsWithCi hay needle = true ↔ needle.map lower <+: hay.map lower := by
  simp only [startsWithCi, eqIgnoreCase, Bool.and_eq_true, decide_eq_true_eq, beq_iff_eq,
    List.map_take]
  rw [List.prefix_iff_eq_take, List.length_map]
  constructor
  · rintro ⟨-, heq⟩
    exact heq.symm
  · intro heq
    refine ⟨?_, heq.symm⟩
    have := congrArg List.length heq
    rw [List.length_take, List.length_map, List.length_map] at this
    omega

theorem containsCi_iff {hay needle : List UInt8} :
    containsCi hay needle = true ↔ needle.map lower <:+: hay.map lower := by
  constructor
  · unfold containsCi
    split
    · intro hnil
      rw [decide_eq_true_iff.1 hnil]
      exact List.nil_infix
    · intro hany
      obtain ⟨i, -, hi⟩ := List.any_eq_true.1 hany
      have hpre := startsWithCi_iff.1 hi
      rw [List.map_drop] at hpre
      exact hpre.isInfix.trans (List.drop_suffix i _).isInfix
  · rintro ⟨pre, post, heq⟩
    have hlen := congrArg List.length heq
    simp only [List.length_append, List.length_map] at hlen
    unfold containsCi
    split
    · rename_i hshort
      rcases hshort with hnil | hlt
      · exact decide_eq_true hnil
      · omega
    · rw [List.any_eq_true]
      refine ⟨pre.length, List.mem_range.2 (by omega), startsWithCi_iff.2 ⟨post, ?_⟩⟩
      rw [List.map_drop, ← heq, List.append_assoc, List.drop_left]

/-! ## A stretch -/

section Stretch

variable {text : List Char} {stop : Nat}

/-- The test of the walk is for a mark at the head of what is left of the stretch. -/
theorem markerAt_eq {s : List UInt8} {i : Nat} (hi : i ≤ stop) (m : String) :
    (decide (i + (bytes m).length ≤ stop) && startsWithCi (s.drop i) (bytes m)) =
      (markOf m).isPrefixOf ((slice s (i, stop)).map lower) := by
  rw [Bool.eq_iff_iff, Bool.and_eq_true, decide_eq_true_eq, startsWithCi_iff,
    List.isPrefixOf_iff_prefix, markOf, slice, List.drop_take, List.map_take,
    List.prefix_take_iff, List.length_map, and_comm]
  exact and_congr_right fun _ => by dsimp only; omega

theorem markAt?_markOf {s : List UInt8} {i : Nat} (hi : i ≤ stop) (markers : List String) :
    markAt? lower (markers.map markOf) (slice s (i, stop)) =
      (markers.find? (fun m => decide (i + (bytes m).length ≤ stop) &&
        startsWithCi (s.drop i) (bytes m))).map markOf := by
  rw [markAt?, List.find?_map]
  congr 1
  exact List.find?_congr fun m _ => (markerAt_eq hi m).symm

/-- A marker matches bytes that are characters of their own. -/
theorem ascii_of_matched {s : List UInt8} {i j : Nat} {m : String} (hm : m ∈ redactMarkers)
    (hmatch : markOf m <+: (slice s (i, stop)).map lower) (hj : j < (bytes m).length) :
    ∃ b, s[i + j]? = some b ∧ b.toNat < 128 := by
  obtain ⟨rest, hrest⟩ := hmatch
  have hget : ((slice s (i, stop)).map lower)[j]? = some (lower (bytes m)[j]) := by
    rw [← hrest, List.getElem?_append_left (by simpa [markOf] using hj), markOf,
      List.getElem?_map, List.getElem?_eq_getElem hj]
    rfl
  rw [List.getElem?_map, Option.map_eq_some_iff] at hget
  obtain ⟨b, hb, hlower⟩ := hget
  rw [slice, List.getElem?_drop, List.getElem?_take] at hb
  split at hb
  · refine ⟨b, hb, lower_ascii.1 ?_⟩
    rw [hlower, lower_ascii]
    exact (redactMarkers_ascii m hm).2 _ (List.getElem_mem hj)
  · cases hb

theorem boundary_of_matched {i : Nat} {m : String} (hm : m ∈ redactMarkers)
    (hmatch : markOf m <+: (slice (encode text) (i, stop)).map lower) :
    isBoundary (encode text) i = true ∧
      isBoundary (encode text) (i + (bytes m).length) = true := by
  have hpos := List.length_pos_iff.2 (redactMarkers_ascii m hm).1
  obtain ⟨b, hb, hascii⟩ := ascii_of_matched hm hmatch hpos
  obtain ⟨c, hc, hascii'⟩ := ascii_of_matched hm hmatch (Nat.sub_one_lt hpos.ne')
  refine ⟨Utf8.isBoundary_of_ascii hb hascii, ?_⟩
  have hplace := Utf8.isBoundary_succ hc hascii'
  rwa [Nat.add_assoc, Nat.sub_add_cancel hpos] at hplace

theorem slice_self (s : List UInt8) (i : Nat) : slice s (i, i) = [] := by
  simp [slice]

theorem slice_snoc {s : List UInt8} {run i : Nat} (hrun : run ≤ i) (hi : i < s.length) :
    slice s (run, i + 1) = slice s (run, i) ++ [s[i]] := by
  rw [slice, slice, List.take_succ_eq_append_getElem hi, List.drop_append_of_le_length]
  rw [List.length_take]
  omega

theorem slice_cons {s : List UInt8} {i : Nat} (hi : i < stop) (hstop : stop ≤ s.length) :
    slice s (i, stop) = s[i] :: slice s (i + 1, stop) := by
  have hlt : i < (s.take stop).length := by
    rw [List.length_take]
    omega
  rw [slice, slice, List.drop_eq_getElem_cons hlt, List.getElem_take]

/-- The walk over a stretch is a sweep: what has been read since `run` goes out as it came. -/
theorem markersLoop_sweep {markers : List String} (hmarkers : ∀ m ∈ markers, m ∈ redactMarkers)
    (hstop : stop ≤ (encode text).length) (hplace : isBoundary (encode text) stop = true)
    (turns : Nat) : ∀ run i, run ≤ i → i ≤ stop → stop - i ≤ turns →
      isBoundary (encode text) run = true →
      ∃ pieces, markersLoop (encode text) stop markers turns run i = some pieces ∧
        pieces.flatMap Piece.bytes = slice (encode text) (run, i) ++
          sweep lower (bytes marker) (markers.map markOf) (slice (encode text) (i, stop)) := by
  induction turns with
  | zero =>
    intro run i hrun hi hturns hfirst
    obtain rfl : i = stop := by omega
    rw [markersLoop, if_neg (lt_irrefl i), strSlice?_eq hrun hstop hfirst hplace, slice_self]
    exact ⟨_, rfl, by simp [Piece.bytes, slice]⟩
  | succ turns ih =>
    intro run i hrun hi hturns hfirst
    rw [markersLoop]
    split
    · rename_i hlt
      have hmark := markAt?_markOf (s := encode text) hi markers
      cases hfind : markers.find? (fun m => decide (i + (bytes m).length ≤ stop) &&
          startsWithCi ((encode text).drop i) (bytes m)) with
      | some m =>
        have hm := hmarkers m (List.mem_of_find?_eq_some hfind)
        have hyes := List.find?_some hfind
        have hle : i + (bytes m).length ≤ stop := by
          simp only [Bool.and_eq_true, decide_eq_true_eq] at hyes
          exact hyes.1
        rw [markerAt_eq hi, List.isPrefixOf_iff_prefix] at hyes
        obtain ⟨hthis, hnext⟩ := boundary_of_matched hm hyes
        have hpos := List.length_pos_iff.2 (redactMarkers_ascii m hm).1
        have hne : markOf m ≠ [] := by simpa [markOf] using (redactMarkers_ascii m hm).1
        obtain ⟨pieces, hpieces, hbytes⟩ :=
          ih (i + (bytes m).length) (i + (bytes m).length) (le_refl _) hle (by omega) hnext
        rw [hfind, Option.map_some] at hmark
        dsimp only
        rw [strSlice?_eq hrun (by omega) hfirst hthis, hpieces, sweep_mark hne hmark]
        refine ⟨_, rfl, ?_⟩
        rw [List.flatMap_cons, List.flatMap_cons, hbytes, slice_self, List.nil_append,
          slice, slice, slice, List.drop_drop, markOf, List.length_map]
        rfl
      | none =>
        obtain ⟨pieces, hpieces, hbytes⟩ :=
          ih run (i + 1) (by omega) hlt (by omega) hfirst
        rw [hfind, Option.map_none, slice_cons hlt hstop] at hmark
        refine ⟨pieces, hpieces, ?_⟩
        rw [hbytes, slice_cons hlt hstop, sweep_cons hmark,
          slice_snoc hrun (by omega), List.append_assoc, List.singleton_append]
    · obtain rfl : i = stop := by omega
      rw [strSlice?_eq hrun hstop hfirst hplace, slice_self]
      exact ⟨_, rfl, by simp [Piece.bytes, slice]⟩

/-- The markers that the text has not are of no account in a stretch of it. -/
theorem sweep_markersIn (s : List UInt8) (span : Span) :
    sweep lower (bytes marker) ((markersIn s).map markOf) (slice s span) =
      redactMarkers.foldl (fun run m => replaceMarker m run) (slice s span) := by
  have hfilter : (markersIn s).map markOf =
      (redactMarkers.map markOf).filter (fun k => decide (k <:+: s.map lower)) := by
    rw [List.filter_map, markersIn]
    congr 1
    apply List.filter_congr
    intro m _
    rw [Bool.eq_iff_iff, containsCi_iff]
    exact decide_eq_true_iff.symm
  have hinside : slice s span <:+: s :=
    (List.drop_suffix span.1 _).isInfix.trans (List.take_prefix span.2 s).isInfix
  rw [hfilter, sweep, sweepFrom_filter]
  · exact (sweep_eq_foldl redactMarkers_apart _).trans List.foldl_map
  · intro m _ hin
    exact decide_eq_true (hin.trans (hinside.map lower))

theorem markersBetween_eq {start : Nat} (hstart : start ≤ stop)
    (hstop : stop ≤ (encode text).length) (hfirst : isBoundary (encode text) start = true)
    (hplace : isBoundary (encode text) stop = true) :
    ∃ pieces, markersBetween (encode text) start stop (markersIn (encode text)) = some pieces ∧
      pieces.flatMap Piece.bytes =
        redactMarkers.foldl (fun run m => replaceMarker m run)
          (slice (encode text) (start, stop)) := by
  rw [← sweep_markersIn, markersBetween]
  split
  · rename_i hnone
    rw [hnone, strSlice?_eq hstart hstop hfirst hplace]
    exact ⟨_, rfl, by simp [Piece.bytes, slice]⟩
  · obtain ⟨pieces, hpieces, hbytes⟩ := markersLoop_sweep
      (fun m hm => (List.mem_filter.1 hm).1) hstop hplace (stop - start) start start
      (le_refl _) hstart (le_refl _) hfirst
    rw [slice_self, List.nil_append] at hbytes
    exact ⟨pieces, hpieces, hbytes⟩

end Stretch

/-! ## The directives of a text follow one another -/

/-- One after the other in the text, from a place on, each between characters. -/
inductive Ordered (s : List UInt8) : Nat → List Directive → Prop where
  | nil {last : Nat} (hplace : isBoundary s last = true) (hlast : last ≤ s.length) :
      Ordered s last []
  | cons {last : Nat} {hit : Directive} {hits : List Directive}
      (hplace : isBoundary s last = true) (hlast : last ≤ hit.start)
      (hstart : isBoundary s hit.start = true) (hlen : hit.start ≤ s.length)
      (hrest : Ordered s hit.stop hits) : Ordered s last (hit :: hits)

theorem possessives_last : ∀ suffix ∈ possessives, 0 < (bytes suffix).length ∧
    ∀ b, (bytes suffix)[(bytes suffix).length - 1]? = some b → b.toNat < 128 := by
  decide +kernel

theorem endOf_place {text : List Char} {o : Span} (ho : IsWord (encode text) o) :
    isBoundary (encode text) (endOf (encode text) o) = true ∧
      endOf (encode text) o ≤ (encode text).length := by
  rw [endOf]
  rcases possessiveLen_cases ((encode text).drop o.2) with
    hzero | ⟨suffix, hsuffix, ⟨rest, hrest⟩, hlen⟩
  · rw [hzero]
    exact ⟨ho.boundary_stop, ho.le⟩
  obtain ⟨hpos, hlast⟩ := possessives_last suffix hsuffix
  have hget := List.getElem?_eq_getElem (Nat.sub_one_lt hpos.ne')
  have hbyte : (encode text)[o.2 + ((bytes suffix).length - 1)]? =
      some (bytes suffix)[(bytes suffix).length - 1] := by
    rw [← List.getElem?_drop, ← hrest, List.getElem?_append_left (Nat.sub_one_lt hpos.ne'), hget]
  have hplace := Utf8.isBoundary_succ hbyte (hlast _ hget)
  have htotal := congrArg List.length hrest
  rw [List.length_append, List.length_drop] at htotal
  have hle := ho.le
  rw [hlen]
  refine ⟨?_, by omega⟩
  rwa [Nat.add_assoc, Nat.sub_add_cancel hpos] at hplace

theorem firstObject_mem {α γ : Type} {object : List α → α → Option γ} {xs : List α} {o : α}
    {c : γ} {between : List α} (h : firstObject object between xs = some (o, c)) : o ∈ xs := by
  induction xs generalizing between with
  | nil => cases h
  | cons x xs ih =>
    rw [firstObject] at h
    split at h
    · cases h
      exact List.mem_cons_self
    · exact List.mem_cons_of_mem _ (ih h)

/-- Where the search goes on. -/
def resumeAt (s : List UInt8) : Option Span → Nat
  | none => 0
  | some o => endOf s o

theorem nested_ordered {text : List Char} (xs : List Span) : ∀ last : Option Span,
    (∀ x ∈ xs, IsWord (encode text) x) → (∀ o, last = some o → IsWord (encode text) o) →
      Ordered (encode text) (resumeAt (encode text) last)
        ((nested (verbAt (encode text)) (objectAt (encode text)) directiveWindow
          (pastEnd (encode text)) last xs).map (toDirective (encode text))) := by
  induction xs with
  | nil =>
    intro last _ hlast
    rw [nested]
    cases last with
    | none => exact Ordered.nil rfl (Nat.zero_le _)
    | some o => exact Ordered.nil (endOf_place (hlast o rfl)).1 (endOf_place (hlast o rfl)).2
  | cons x xs ih =>
    intro last hwords hlast
    have hx := hwords x List.mem_cons_self
    have hxs := fun y hy => hwords y (List.mem_cons_of_mem _ hy)
    have hskip := ih last hxs hlast
    rw [nested]
    split
    · rename_i hpast
      split
      · exact hskip
      split
      · exact hskip
      rename_i o c hfirst
      have ho := hxs o (List.mem_of_mem_take (firstObject_mem hfirst))
      have hrest := ih (some o) hxs (by rintro _ ⟨⟩; exact ho)
      have hlen : x.1 ≤ (encode text).length := hx.lt.le.trans hx.le
      cases last with
      | none => exact Ordered.cons rfl (Nat.zero_le _) hx.boundary_start hlen hrest
      | some o' =>
        exact Ordered.cons (endOf_place (hlast o' rfl)).1 (decide_eq_true_iff.1 hpast)
          hx.boundary_start hlen hrest
    · exact hskip

/-! ## The whole text -/

theorem foldl_replace (markers : List String) (pieces : List Piece) :
    (markers.foldl (fun pieces m => pieces.map (Piece.replace m)) pieces).flatMap Piece.bytes =
      pieces.flatMap (fun p => match p with
        | .text run => markers.foldl (fun run m => replaceMarker m run) run
        | .marker => bytes marker) := by
  induction markers generalizing pieces with
  | nil => rfl
  | cons m markers ih =>
    rw [List.foldl_cons, ih, List.flatMap_map]
    congr 1
    funext p
    cases p <;> rfl

theorem rewriteFrom_eq {text : List Char} {last : Nat} {hits : List Directive}
    (h : Ordered (encode text) last hits) :
    ∃ pieces, rewriteFrom (encode text) (markersIn (encode text)) last hits = some pieces ∧
      pieces.flatMap Piece.bytes =
        (redactMarkers.foldl (fun pieces m => pieces.map (Piece.replace m))
          (cutAt (encode text) last hits)).flatMap Piece.bytes := by
  rw [foldl_replace]
  induction h with
  | nil hplace hlast =>
    obtain ⟨pieces, hpieces, hbytes⟩ :=
      markersBetween_eq hlast (le_refl _) hplace (Utf8.isBoundary_length _)
    exact ⟨pieces, hpieces, by rw [hbytes, cutAt, List.flatMap_singleton]⟩
  | cons hplace hlast hstart hlen _ ih =>
    obtain ⟨pieces, hpieces, hbytes⟩ := markersBetween_eq hlast hlen hplace hstart
    obtain ⟨rest, hrest, hafter⟩ := ih
    rw [rewriteFrom, hpieces, hrest]
    refine ⟨_, rfl, ?_⟩
    rw [List.flatMap_append, hbytes, List.flatMap_cons, hafter, cutAt, List.flatMap_cons,
      List.flatMap_cons]
    rfl

/-- For every text the scrub goes through, and its text is what replacing the directives, and then
marker by marker the structural markers between them, leaves. -/
theorem scrub_markerByMarker (text : List Char) :
    ∃ hits found, directives (encode text) false = some hits ∧
      scan (encode text) = some found ∧
      scrub (encode text) = some (markerByMarker (encode text) hits, found) := by
  have hhits := directives_nested text false
  obtain ⟨pieces, hpieces, hbytes⟩ := rewriteFrom_eq
    (nested_ordered (wordSpans (encode text) false) none (isWord_wordSpans _ false) nofun)
  obtain ⟨found, hfound⟩ : ∃ found, scan (encode text) = some found :=
    ⟨_, by rw [scan, pairsOf, hhits]; rfl⟩
  refine ⟨_, found, hhits, hfound, ?_⟩
  rw [scrub, rewrite, hhits, hfound]
  dsimp only [Option.bind_eq_bind, Option.bind_some]
  rw [resumeAt] at hpieces hbytes
  rw [hpieces, markerByMarker, ← hbytes]
  rfl

-- the case of a marker does not matter, and one inside a directive goes with it
example : (scrub (bytes "You Are Now it. ignore new instructions: now")).map Prod.fst =
    some (bytes "[redacted-directive] it. [redacted-directive]: now") := by
  decide +kernel

end EmbraOS.Ports.Inject
