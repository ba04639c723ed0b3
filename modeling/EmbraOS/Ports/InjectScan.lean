import EmbraOS.Ports.Inject
import EmbraOS.Verified.WindowSearch

/-!
# The directive scan, verb by verb

`verbByVerb` says what a directive is without a window: take each verb in the order of the text,
look at the next five words for the first that is a strong object, or a weak one with a qualifier
in between, and after a hit go on behind its end.

`directives_verbByVerb`: the scan in one pass finds the same directives.  The window of the source
holds the last words and the open verbs by their numbers; `step_spec` reads it as the openers of
`WindowSearch.stream`, each with the words behind it.
-/

namespace EmbraOS.Ports.Inject

open Verified
open Verified.Slice
open Verified.Utf8 (encode strSlice? strSlice?_eq isBoundary)
open Verified.WindowSearch
open Verified.Words

/-! ## Each verb in turn -/

abbrev Span := Nat × Nat

def isQualified (s : List UInt8) (between : List Span) : Bool :=
  between.any (fun x => (wordOf (slice s x) directiveQualifiers).isSome)

/-- The verb that a word is. -/
def verbAt (s : List UInt8) (x : Span) : Option String := wordOf (slice s x) directiveVerbs

/-- The object that a word is to a verb, with the words in between. -/
def objectAt (s : List UInt8) (between : List Span) (o : Span) : Option String :=
  (wordOf (slice s o) directiveObjectsStrong).or
    (if isQualified s between then wordOf (slice s o) directiveObjectsWeak else none)

/-- Where a directive with this object ends: a possessive belongs to it. -/
def endOf (s : List UInt8) (o : Span) : Nat := o.2 + possessiveLen (s.drop o.2)

def pastEnd (s : List UInt8) (o x : Span) : Bool := decide (endOf s o ≤ x.1)

def toDirective (s : List UInt8) (hit : Hit Span String String) : Directive where
  start := hit.first.1
  stop := endOf s hit.last
  verb := hit.verb
  object := hit.object

/-- The directives of a text, each verb in turn. -/
def verbByVerb (s : List UInt8) (json : Bool) : List Directive :=
  (nested (verbAt s) (objectAt s) directiveWindow (pastEnd s) none (wordSpans s json)).map
    (toDirective s)

theorem objectAt_monotone (s : List UInt8) : WindowSearch.Monotone (objectAt s) := by
  intro more between o c h
  unfold objectAt isQualified at *
  cases hstrong : wordOf (slice s o) directiveObjectsStrong with
  | some object => rwa [hstrong] at h
  | none =>
    rw [hstrong, Option.none_or] at h
    rw [Option.none_or, List.any_append]
    split at h
    · rename_i hq
      rw [hq, Bool.or_true]
      exact h
    · cases h

/-! ## Words of a text -/

/-- A run of letters and digits in the text. -/
structure IsWord (s : List UInt8) (x : Span) : Prop where
  lt : x.1 < x.2
  le : x.2 ≤ s.length
  word : ∀ b ∈ slice s x, isAsciiAlphanumeric b = true

theorem isAsciiAlphanumeric_ascii {b : UInt8} (h : isAsciiAlphanumeric b = true) :
    b.toNat < 128 := by
  simp only [isAsciiAlphanumeric, Bool.or_eq_true, Bool.and_eq_true, decide_eq_true_eq,
    UInt8.le_iff_toNat_le] at h
  simp only [UInt8.reduceToNat] at h
  omega

section Words

variable {text : List Char} {x : Span}

section

variable (h : IsWord (encode text) x)
include h

theorem IsWord.get {i : Nat} (hlo : x.1 ≤ i) (hhi : i < x.2) :
    ∃ b, (encode text)[i]? = some b ∧ isAsciiAlphanumeric b = true := by
  have hlt : i < (encode text).length := lt_of_lt_of_le hhi h.le
  refine ⟨_, List.getElem?_eq_getElem hlt, h.word _ ?_⟩
  have hget : (slice (encode text) x)[i - x.1]? = some (encode text)[i] := by
    rw [slice, List.getElem?_drop, Nat.add_sub_cancel' hlo, List.getElem?_take_of_lt hhi,
      List.getElem?_eq_getElem hlt]
  exact List.mem_of_getElem? hget

theorem IsWord.boundary_start :
    isBoundary (encode text) x.1 = true := by
  obtain ⟨b, hget, hb⟩ := h.get (le_refl _) h.lt
  exact Utf8.isBoundary_of_ascii hget (isAsciiAlphanumeric_ascii hb)

theorem IsWord.boundary_stop :
    isBoundary (encode text) x.2 = true := by
  have hlt := h.lt
  obtain ⟨b, hget, hb⟩ := h.get (Nat.le_sub_one_of_lt hlt) (by omega)
  have hplace := Utf8.isBoundary_succ hget (isAsciiAlphanumeric_ascii hb)
  rwa [Nat.sub_add_cancel (by omega)] at hplace

theorem IsWord.strSlice :
    strSlice? (encode text) x.1 x.2 = some (slice (encode text) x) :=
  strSlice?_eq h.lt.le h.le h.boundary_start h.boundary_stop

end

theorem isWord_wordSpans (s : List UInt8) (json : Bool) :
    ∀ x ∈ wordSpans s json, IsWord s x := by
  intro x hx
  obtain ⟨-, hlt, hle, hword⟩ := (spans_spans _ s).mem x hx
  exact ⟨hlt, hle, hword⟩

theorem possessiveEnd_eq (h : IsWord (encode text) x) :
    possessiveEnd (encode text) x.2 = some (endOf (encode text) x) := by
  rw [possessiveEnd, strSlice?_eq h.le (le_refl _) h.boundary_stop (Utf8.isBoundary_length _),
    List.take_length]
  rfl

end Words

/-! ## Behind a hit -/

theorem possessives_letters : ∀ suffix ∈ possessives, ∀ b ∈ bytes suffix,
    isAsciiAlphanumeric b = true → lower b = 0x73 := by
  decide +kernel

theorem directiveVerbs_head : ∀ m ∈ directiveVerbs, ((bytes m).map lower).head? ≠ some 0x73 := by
  decide +kernel

theorem possessiveLen_cases (rest : List UInt8) :
    possessiveLen rest = 0 ∨ ∃ suffix ∈ possessives, bytes suffix <+: rest ∧
      possessiveLen rest = (bytes suffix).length := by
  unfold possessiveLen
  split
  · rename_i suffix hfind
    have hyes : (bytes suffix).isPrefixOf rest = true := by simpa using List.find?_some hfind
    exact Or.inr ⟨suffix, List.mem_of_find?_eq_some hfind, List.isPrefixOf_iff_prefix.1 hyes, rfl⟩
  · exact Or.inl rfl

theorem wordOf_isSome {word : List UInt8} {set : List String} :
    (wordOf word set).isSome = true ↔ ∃ m ∈ set, (bytes m).map lower = word.map lower := by
  simp [wordOf, eqIgnoreCase]

/-- The letter of a possessive begins no verb, so the next verb is past it. -/
theorem endOf_le_verb {s : List UInt8} {o x : Span} (hbehind : o.2 < x.1) (hx : IsWord s x)
    (hverb : (verbAt s x).isSome = true) : endOf s o ≤ x.1 := by
  rw [endOf]
  rcases possessiveLen_cases (s.drop o.2) with hzero | ⟨suffix, hsuffix, ⟨rest, hrest⟩, hlen⟩
  · omega
  by_contra hinside
  have hlt := hx.lt
  have hidx : x.1 - o.2 < (bytes suffix).length := by omega
  -- The first byte of the word is a byte of the possessive.
  have hbyte : s[x.1]? = some (bytes suffix)[x.1 - o.2] := by
    have hget : (s.drop o.2)[x.1 - o.2]? = s[x.1]? := by
      rw [List.getElem?_drop, Nat.add_sub_cancel' hbehind.le]
    rw [← hget, ← hrest, List.getElem?_append_left hidx, List.getElem?_eq_getElem hidx]
  have hhead : (slice s x).head? = some (bytes suffix)[x.1 - o.2] := by
    rw [slice, List.head?_drop, List.getElem?_take_of_lt hlt, hbyte]
  have hletter : lower (bytes suffix)[x.1 - o.2] = 0x73 :=
    possessives_letters suffix hsuffix _ (List.getElem_mem hidx)
      (hx.word _ (List.mem_of_head? hhead))
  obtain ⟨m, hm, heq⟩ := wordOf_isSome.1 hverb
  apply directiveVerbs_head m hm
  rw [heq, List.head?_map, hhead, Option.map_some, hletter]

theorem pairwise_spans {s : List UInt8} {lo : Nat} {xs : List Span}
    (h : Spans isAsciiAlphanumeric s lo xs) : xs.Pairwise (fun x y => x.2 < y.1) := by
  induction h with
  | nil => exact List.Pairwise.nil
  | cons _ _ _ _ hrest ih =>
    exact List.Pairwise.cons (fun y hy => (hrest.mem y hy).1) ih

theorem resumes_wordSpans (s : List UInt8) (json : Bool) :
    Resumes (verbAt s) (pastEnd s) (wordSpans s json) := by
  have hword := isWord_wordSpans s json
  have horder := pairwise_spans (spans_spans (p := isAsciiAlphanumeric)
    (if json then separatorLen else fun _ => 1) s)
  refine ⟨?_, ?_, ?_⟩
  · refine List.Pairwise.imp_of_mem ?_ horder
    intro x o hx ho hlt
    have h1 := (hword x hx).lt
    have h2 := (hword o ho).lt
    exact decide_eq_false (by rw [endOf]; omega)
  · intro o ho
    have h := (hword o ho).lt
    exact decide_eq_false (by rw [endOf]; omega)
  · refine List.Pairwise.imp_of_mem ?_ horder
    intro o x ho hx hlt hverb
    exact decide_eq_true (endOf_le_verb hlt (hword x hx) hverb)

/-! ## The window -/

section Scan

variable {text : List Char} {done : List Span} {win : Window} {span : Span}

/-- The window holds the last words that have been read, and the verbs are words among them. -/
structure Tracks (done : List Span) (win : Window) : Prop where
  k : win.k = done.length
  recent : win.recent = done.drop (done.length - (directiveWindow + 1))
  first : win.first = done.length - (directiveWindow + 1)
  verbs : ∀ v ∈ win.verbs, v.1 < done.length

/-- An open verb with the words behind it. -/
def opened (done : List Span) (v : Nat × String) : Opened Span String :=
  (done.getD v.1 (0, 0), v.2, done.drop (v.1 + 1))

theorem tracks_start : Tracks [] {} := by
  constructor <;> simp

theorem Tracks.length_recent (h : Tracks done win) :
    win.recent.length = min done.length (directiveWindow + 1) := by
  rw [h.recent, List.length_drop]
  omega

theorem Tracks.push_recent (h : Tracks done win) :
    (win.push span).recent = (done ++ [span]).drop (done.length - directiveWindow) := by
  have hlen := h.length_recent
  rw [Window.push]
  dsimp only
  split
  · rename_i hfull
    rw [h.recent, List.tail_drop, List.drop_append_of_le_length (by omega)]
    congr 2
    omega
  · rename_i hroom
    rw [h.recent, show done.length - (directiveWindow + 1) = 0 by omega,
      show done.length - directiveWindow = 0 by omega]
    rfl

theorem Tracks.push_first (h : Tracks done win) :
    (win.push span).first = done.length - directiveWindow := by
  have hlen := h.length_recent
  rw [Window.push]
  dsimp only
  rw [h.first]
  split <;> omega

/-- The verbs that stay are those whose window covers the word. -/
theorem Tracks.push_verbs (h : Tracks done win) : (win.push span).verbs.map (opened done) =
      inWindow directiveWindow (win.verbs.map (opened done)) := by
  rw [inWindow, List.filter_map, Window.push]
  congr 1
  apply List.filter_congr
  intro v hv
  have hlt := h.verbs v hv
  simp only [Function.comp_apply, opened, List.length_drop, h.k, decide_eq_decide]
  omega

theorem mem_push_verbs {v : Nat × String} (hv : v ∈ (win.push span).verbs) :
    v ∈ win.verbs ∧ win.k ≤ v.1 + directiveWindow := by
  simpa [Window.push] using hv

variable (span) in
/-- The words between a verb of the window and the word that has come in. -/
theorem Tracks.between (h : Tracks done win) {w : Nat} (hw : w < done.length)
    (hopen : win.k ≤ w + directiveWindow) :
    ∃ i j, checkedSub? (w + 1) (win.push span).first = some i ∧
      checkedSub? (win.push span).k (win.push span).first = some j ∧
      slice? (win.push span).recent i j = some (done.drop (w + 1)) := by
  have hk : (win.push span).k = done.length := h.k
  rw [h.k] at hopen
  rw [hk, h.push_first, h.push_recent, checkedSub?_eq (by omega), checkedSub?_eq (by omega)]
  refine ⟨_, _, rfl, rfl, ?_⟩
  rw [slice?_eq (by omega) (by simp; omega)]
  have htake : ((done ++ [span]).drop (done.length - directiveWindow)).take
      (done.length - (done.length - directiveWindow)) =
      done.drop (done.length - directiveWindow) := by
    rw [List.drop_append_of_le_length (by omega)]
    exact List.take_left' (by simp)
  rw [htake, List.drop_drop]
  congr 2
  omega

theorem hasQualifier_eq (between : List Span) (h : ∀ x ∈ between, IsWord (encode text) x) :
    hasQualifier (encode text) between = some (isQualified (encode text) between) := by
  induction between with
  | nil => rfl
  | cons x between ih =>
    have hx := (h x List.mem_cons_self).strSlice
    have hrest := ih fun y hy => h y (List.mem_cons_of_mem _ hy)
    obtain ⟨a, z⟩ := x
    rw [hasQualifier, hx, isQualified, List.any_cons]
    dsimp only [Option.bind_eq_bind, Option.bind_some]
    cases hq : (wordOf (slice (encode text) (a, z)) directiveQualifiers).isSome with
    | true => rfl
    | false => exact hrest

/-- Whether a verb takes the object. -/
def takes (s : List UInt8) (done : List Span) (strong : Bool) (v : Nat × String) : Bool :=
  strong || isQualified s (done.drop (v.1 + 1))

theorem findVerb_eq (h : Tracks done win) (hdone : ∀ x ∈ done, IsWord (encode text) x)
    (strong : Bool) (vs : List (Nat × String)) (hvs : ∀ v ∈ vs, v ∈ (win.push span).verbs) :
    findVerb (encode text) (win.push span) strong vs =
      some (vs.find? (takes (encode text) done strong)) := by
  induction vs with
  | nil => rfl
  | cons v vs ih =>
    have hrest := ih (fun x hx => hvs x (List.mem_cons_of_mem _ hx))
    obtain ⟨hmem, hopen⟩ := mem_push_verbs (hvs v List.mem_cons_self)
    obtain ⟨i, j, hi, hj, hslice⟩ := h.between span (h.verbs v hmem) hopen
    have hbetween := hasQualifier_eq (done.drop (v.1 + 1))
      (fun x hx => hdone x (List.mem_of_mem_drop hx))
    obtain ⟨w, verb⟩ := v
    rw [findVerb, List.find?_cons]
    cases strong with
    | true => rfl
    | false =>
      rw [if_neg Bool.false_ne_true, hi, hj]
      dsimp only [Option.bind_eq_bind, Option.bind_some]
      rw [hslice, Option.bind_some, hbetween, Option.bind_some, takes, Bool.false_or]
      split
      · rename_i hq
        rw [hq]
        rfl
      · rename_i hq
        rw [Bool.not_eq_true] at hq
        rw [hq]
        exact hrest

/-- Searching for what a predicate lets through, and for what is made of it. -/
theorem findSome?_eq_find? {α β : Type} {p : α → Bool} {f : α → Option β} {g : α → β}
    {xs : List α} (h : ∀ x ∈ xs, f x = if p x then some (g x) else none) :
    xs.findSome? f = (xs.find? p).map g := by
  induction xs with
  | nil => rfl
  | cons x xs ih =>
    have hx := h x List.mem_cons_self
    have hrest := ih fun y hy => h y (List.mem_cons_of_mem _ hy)
    rw [List.findSome?_cons, List.find?_cons, hx]
    cases p x with
    | true => rfl
    | false => exact hrest

variable (span) in
/-- The word that a verb of the window is, read back from the window. -/
theorem Tracks.opening (h : Tracks done win) {w : Nat} (hw : w < done.length)
    (hopen : win.k ≤ w + directiveWindow) :
    ∃ i, checkedSub? w (win.push span).first = some i ∧
      (win.push span).recent[i]? = some (done.getD w (0, 0)) := by
  rw [h.k] at hopen
  refine ⟨w - (done.length - directiveWindow), ?_, ?_⟩
  · rw [h.push_first]
    exact checkedSub?_eq (by omega)
  · rw [h.push_recent, List.getElem?_drop, Nat.add_sub_cancel' (by omega),
      List.getElem?_append_left hw, List.getElem?_eq_getElem hw, List.getD_eq_getElem _ _ hw]

/-- The word completes what the oldest verb that takes it has begun. -/
theorem completes_eq (h : Tracks done win) (hdone : ∀ x ∈ done, IsWord (encode text) x)
    (hspan : IsWord (encode text) span) :
    completes (encode text) (win.push span) (slice (encode text) span) span.2 =
      some (((inWindow directiveWindow (win.verbs.map (opened done))).findSome?
        (taken (objectAt (encode text)) span)).map (toDirective (encode text))) := by
  rw [← h.push_verbs, List.findSome?_map, completes]
  have htaken : ∀ v, (taken (objectAt (encode text)) span ∘ opened done) v =
      (objectAt (encode text) (done.drop (v.1 + 1)) span).map fun c =>
        ⟨done.getD v.1 (0, 0), v.2, span, c⟩ := fun v => rfl
  cases hobject : (wordOf (slice (encode text) span) directiveObjectsStrong).or
      (wordOf (slice (encode text) span) directiveObjectsWeak) with
  | none =>
    rw [Option.or_eq_none_iff] at hobject
    rw [List.findSome?_eq_none_iff.2]
    · rfl
    · intro v _
      rw [htaken, objectAt, hobject.1, hobject.2, ite_self]
      rfl
  | some object =>
    have hfind : (win.push span).verbs.findSome?
        (taken (objectAt (encode text)) span ∘ opened done) =
        ((win.push span).verbs.find? (takes (encode text) done
          (wordOf (slice (encode text) span) directiveObjectsStrong).isSome)).map
          (fun v => ⟨done.getD v.1 (0, 0), v.2, span, object⟩) := by
      apply findSome?_eq_find?
      intro v _
      rw [htaken, objectAt, takes]
      cases hstrong : wordOf (slice (encode text) span) directiveObjectsStrong with
      | some strong =>
        rw [hstrong, Option.some_or] at hobject
        rw [Option.some_or, hobject]
        rfl
      | none =>
        rw [hstrong, Option.none_or] at hobject
        rw [Option.none_or, hobject, Option.isSome_none, Bool.false_or]
        split <;> rfl
    rw [hfind]
    rw [findVerb_eq h hdone _ _ (fun v hv => hv)]
    dsimp only [Option.bind_eq_bind, Option.bind_some]
    cases hverb : (win.push span).verbs.find? (takes (encode text) done
        (wordOf (slice (encode text) span) directiveObjectsStrong).isSome) with
    | none => rfl
    | some v =>
      obtain ⟨hmem, hopen⟩ := mem_push_verbs (List.mem_of_find?_eq_some hverb)
      obtain ⟨i, hi, hget⟩ := h.opening span (h.verbs v hmem) hopen
      obtain ⟨w, verb⟩ := v
      dsimp only
      rw [hi, Option.bind_some, hget, Option.bind_some, possessiveEnd_eq hspan]
      rfl

/-- The window after a word, whatever becomes of the verbs. -/
theorem Tracks.next (h : Tracks done win) (verbs : List (Nat × String))
    (hverbs : ∀ v ∈ verbs, v.1 < done.length + 1) :
    Tracks (done ++ [span]) { win.push span with verbs := verbs, k := (win.push span).k + 1 } := by
  constructor
  · show win.k + 1 = _
    rw [h.k, List.length_append, List.length_singleton]
  · show (win.push span).recent = _
    rw [h.push_recent, List.length_append, List.length_singleton]
    congr 1
  · show (win.push span).first = _
    rw [h.push_first, List.length_append, List.length_singleton]
    omega
  · intro v hv
    rw [List.length_append]
    exact hverbs v hv

theorem opened_snoc {v : Nat × String} (hv : v.1 < done.length) :
    opened (done ++ [span]) v =
      ((opened done v).1, (opened done v).2.1, (opened done v).2.2 ++ [span]) := by
  unfold opened
  rw [List.getD_append _ _ _ _ hv, List.drop_append_of_le_length (by omega)]

variable (span) in
/-- What becomes of the open verbs when a word completes nothing. -/
theorem Tracks.reopened (h : Tracks done win) (s : List UInt8) :
    ((win.push span).verbs ++ (verbAt s span).toList.map (fun v => (win.k, v))).map
        (opened (done ++ [span])) =
      WindowSearch.reopened (verbAt s) span
        (inWindow directiveWindow (win.verbs.map (opened done))) := by
  rw [← h.push_verbs, WindowSearch.reopened, List.map_append, List.map_map, List.map_map]
  congr 1
  · apply List.map_congr_left
    intro v hv
    exact opened_snoc (h.verbs v (mem_push_verbs hv).1)
  · apply List.map_congr_left
    intro v _
    simp [opened, h.k]

/-- One word: the window keeps track, and the step is that of the one-pass search. -/
theorem step_spec (h : Tracks done win) (hdone : ∀ x ∈ done, IsWord (encode text) x)
    (hspan : IsWord (encode text) span) :
    ∃ win', Tracks (done ++ [span]) win' ∧
      match (inWindow directiveWindow (win.verbs.map (opened done))).findSome?
          (taken (objectAt (encode text)) span) with
      | some hit =>
        step (encode text) win span = some (win', some (toDirective (encode text) hit)) ∧
          win'.verbs = []
      | none =>
        step (encode text) win span = some (win', none) ∧
          win'.verbs.map (opened (done ++ [span])) =
            WindowSearch.reopened (verbAt (encode text)) span
              (inWindow directiveWindow (win.verbs.map (opened done))) := by
  have hcompletes := completes_eq h hdone hspan
  have hold : ∀ v ∈ (win.push span).verbs, v.1 < done.length + 1 :=
    fun v hv => Nat.lt_succ_of_lt (h.verbs v (mem_push_verbs hv).1)
  unfold step
  rw [hspan.strSlice]
  dsimp only [Option.bind_eq_bind, Option.bind_some]
  rw [hcompletes]
  cases hfind : (inWindow directiveWindow (win.verbs.map (opened done))).findSome?
      (taken (objectAt (encode text)) span) with
  | some hit => exact ⟨_, h.next [] (by simp), rfl, rfl⟩
  | none =>
    have hreopened := h.reopened span (encode text)
    simp only [Option.map_none, Option.bind_some]
    cases hverb : wordOf (slice (encode text) span) directiveVerbs with
    | some verb =>
      rw [show verbAt (encode text) span = some verb from hverb] at hreopened
      refine ⟨_, h.next _ ?_, rfl, hreopened⟩
      intro v hv
      rcases List.mem_append.1 hv with hv | hv
      · exact hold v hv
      · rw [List.mem_singleton.1 hv]
        show win.k < _
        rw [h.k]
        exact Nat.lt_succ_self _
    | none =>
      rw [show verbAt (encode text) span = none from hverb] at hreopened
      refine ⟨_, h.next _ hold, rfl, ?_⟩
      simpa using hreopened

/-- The scan over the rest of the words is the one-pass search over them. -/
theorem directivesFrom_stream (todo : List Span) : ∀ {done : List Span} {win : Window},
    Tracks done win → (∀ x ∈ done, IsWord (encode text) x) →
      (∀ x ∈ todo, IsWord (encode text) x) →
      directivesFrom (encode text) win todo =
        some ((stream (verbAt (encode text)) (objectAt (encode text)) directiveWindow
          (win.verbs.map (opened done)) todo).map (toDirective (encode text))) := by
  induction todo with
  | nil =>
    intro done win _ _ _
    rfl
  | cons span todo ih =>
    intro done win htracks hdone htodo
    have hspan := htodo span List.mem_cons_self
    obtain ⟨win', htracks', hstep⟩ := step_spec htracks hdone hspan
    have hdone' : ∀ x ∈ done ++ [span], IsWord (encode text) x := by
      intro x hx
      rcases List.mem_append.1 hx with hx | hx
      · exact hdone x hx
      · rwa [List.mem_singleton.1 hx]
    have hrest := ih htracks' hdone' fun x hx => htodo x (List.mem_cons_of_mem _ hx)
    rw [directivesFrom, stream]
    cases hfind : (inWindow directiveWindow (win.verbs.map (opened done))).findSome?
        (taken (objectAt (encode text)) span) with
    | some hit =>
      rw [hfind] at hstep
      obtain ⟨hstep, hverbs⟩ := hstep
      rw [hverbs] at hrest
      rw [hstep]
      dsimp only [Option.bind_eq_bind, Option.bind_some]
      rw [hrest]
      rfl
    | none =>
      rw [hfind] at hstep
      obtain ⟨hstep, hverbs⟩ := hstep
      rw [hverbs] at hrest
      rw [hstep]
      dsimp only [Option.bind_eq_bind, Option.bind_some]
      rw [hrest]
      rfl

end Scan

theorem directives_nested (text : List Char) (json : Bool) :
    directives (encode text) json =
      some ((nested (verbAt (encode text)) (objectAt (encode text)) directiveWindow
        (pastEnd (encode text)) none (wordSpans (encode text) json)).map
          (toDirective (encode text))) := by
  rw [directives, directivesFrom_stream _ tracks_start (by simp) (isWord_wordSpans _ json),
    ← stream_eq_nested (objectAt_monotone _) (resumes_wordSpans _ json)]
  rfl

/-- For every text, read plainly or as JSON, the scan goes through, and it finds the sequence of
directives that the search of each verb's window in turn finds. -/
theorem directives_verbByVerb (text : List Char) (json : Bool) :
    directives (encode text) json = some (verbByVerb (encode text) json) :=
  directives_nested text json

-- the object goes to the older verb, and the possessive with it
example : verbByVerb (bytes "ignore forget a user's commands") false =
    [⟨0, 22, "ignore", "user"⟩] := by
  decide +kernel

end EmbraOS.Ports.Inject
