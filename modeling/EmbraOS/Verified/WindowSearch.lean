import Mathlib

/-!
# Searching a window after each opener

Some elements of a sequence open a window of `size` elements behind them, and `object between o`
says what `o` is to an opener that has `between` in front of it.

* `nested` goes from opener to opener, looks through the window of each for the first object, and
  after a hit goes on past it.
* `stream` reads the sequence once.  It keeps the openers whose window is still open, oldest
  first, and gives an object to the oldest that takes it.

`stream_eq_nested`: when an object of a later opener is one of an earlier opener too, the two find
the same hits in the same order.
-/

namespace EmbraOS.Verified.WindowSearch

variable {α β γ : Type}

/-- An opener and its object. -/
structure Hit (α β γ : Type) where
  first : α
  verb : β
  last : α
  object : γ
deriving DecidableEq, Repr

section Search

variable (verb : α → Option β) (object : List α → α → Option γ) (size : Nat)

/-! ## Opener by opener -/

/-- The first object among the elements, `between` having been passed. -/
def firstObject : List α → List α → Option (α × γ)
  | _, [] => none
  | between, o :: rest =>
    match object between o with
    | some c => some (o, c)
    | none => firstObject (between ++ [o]) rest

/-- The hits, opener by opener, from the elements past the last object on. -/
def nested (past : α → α → Bool) : Option α → List α → List (Hit α β γ)
  | _, [] => []
  | last, x :: xs =>
    if last.all (fun o => past o x) then
      match verb x with
      | none => nested past last xs
      | some v =>
        match firstObject object [] (xs.take size) with
        | none => nested past last xs
        | some (o, c) => ⟨x, v, o, c⟩ :: nested past (some o) xs
    else nested past last xs

/-! ## In one pass -/

/-- An opener that has been read, and the elements behind it. -/
abbrev Opened (α β : Type) := α × β × List α

/-- The openers whose window covers the next element. -/
def inWindow (opened : List (Opened α β)) : List (Opened α β) :=
  opened.filter (fun p => decide (p.2.2.length < size))

def taken (x : α) (p : Opened α β) : Option (Hit α β γ) :=
  (object p.2.2 x).map fun c => ⟨p.1, p.2.1, x, c⟩

/-- The openers after an element that is no object. -/
def reopened (x : α) (opened : List (Opened α β)) : List (Opened α β) :=
  opened.map (fun p => (p.1, p.2.1, p.2.2 ++ [x])) ++
    (verb x).toList.map (fun v => (x, v, []))

def stream : List (Opened α β) → List α → List (Hit α β γ)
  | _, [] => []
  | opened, x :: xs =>
    match (inWindow size opened).findSome? (taken object x) with
    | some hit => hit :: stream [] xs
    | none => stream (reopened verb x (inWindow size opened)) xs

/-! ## What has been read since the last hit -/

/-- The openers of a sequence whose window the sequence has not filled. -/
def openers : List α → List (Opened α β)
  | [] => []
  | x :: xs =>
    (if xs.length ≤ size then (verb x).toList.map (fun v => (x, v, xs)) else []) ++
      openers xs

/-- No opener has an object in its window. -/
def Quiet (xs : List α) : Prop :=
  ∀ pre a mid o post, xs = pre ++ a :: (mid ++ o :: post) → (verb a).isSome = true →
    mid.length < size → object mid o = none

variable {verb object size}

theorem openers_snoc (xs : List α) (x : α) :
    openers verb size (xs ++ [x]) = reopened verb x (inWindow size (openers verb size xs)) := by
  induction xs with
  | nil => simp [openers, reopened, inWindow]
  | cons y xs ih =>
    rw [List.cons_append, openers, ih, openers]
    by_cases hlen : xs.length < size
    · have hle : xs.length ≤ size := hlen.le
      have hle' : (xs ++ [x]).length ≤ size := by simpa using hlen
      rw [if_pos hle, if_pos hle']
      cases verb y <;> simp [reopened, inWindow, hlen]
    · have hgt : ¬ (xs ++ [x]).length ≤ size := by simpa using hlen
      rw [if_neg hgt]
      split
      · cases verb y <;> simp [reopened, inWindow, hlen]
      · rfl

theorem mem_inWindow_openers {pre : List α} {a : α} {mid : List α} {v : β}
    (hverb : verb a = some v) (hmid : mid.length < size) :
    (a, v, mid) ∈ inWindow size (openers verb size (pre ++ a :: mid)) := by
  rw [inWindow, List.mem_filter]
  refine ⟨?_, by simpa using hmid⟩
  induction pre with
  | nil =>
    rw [List.nil_append, openers, if_pos hmid.le, hverb]
    exact List.mem_append_left _ (List.mem_singleton.2 rfl)
  | cons y pre ih =>
    rw [List.cons_append, openers]
    exact List.mem_append_right _ ih

/-! ## The object of the oldest opener -/

/-- What is an object stays one when more stands in between. -/
def Monotone (object : List α → α → Option γ) : Prop :=
  ∀ more between o c, object between o = some c → object (more ++ between) o = some c

/-- The hit is of the oldest opener in `xs` whose window covers `x`. -/
structure Oldest (verb : α → Option β) (object : List α → α → Option γ) (size : Nat) (x : α)
    (hit : Hit α β γ) (pre mid : List α) : Prop where
  opens : verb hit.first = some hit.verb
  near : mid.length < size
  last : hit.last = x
  takes : object mid x = some hit.object
  far : ∀ p u q, pre = p ++ u :: q → (verb u).isSome = true →
    size ≤ (q ++ hit.first :: mid).length

theorem Oldest.cons {x y : α} {hit : Hit α β γ} {pre mid : List α}
    (h : Oldest verb object size x hit pre mid)
    (hfar : (verb y).isSome = true → size ≤ (pre ++ hit.first :: mid).length) :
    Oldest verb object size x hit (y :: pre) mid := by
  refine ⟨h.opens, h.near, h.last, h.takes, ?_⟩
  intro p u q hpre hu
  rcases List.cons_eq_append_iff.1 hpre with ⟨rfl, hcons⟩ | ⟨p', rfl, hpre'⟩
  · obtain ⟨rfl, rfl⟩ := List.cons.inj hcons
    exact hfar hu
  · exact h.far p' u q hpre' hu

theorem oldest_takes (hmono : Monotone object) {x : α} {hit : Hit α β γ} (xs : List α)
    (hfind : (inWindow size (openers verb size xs)).findSome? (taken object x) = some hit) :
    ∃ pre mid, xs = pre ++ hit.first :: mid ∧ Oldest verb object size x hit pre mid := by
  induction xs with
  | nil => simp [openers, inWindow] at hfind
  | cons y xs ih =>
    by_cases hnear : (verb y).isSome = true ∧ xs.length < size
    · obtain ⟨hsome, hlen⟩ := hnear
      obtain ⟨v, hy⟩ := Option.isSome_iff_exists.1 hsome
      have hcons : inWindow size (openers verb size (y :: xs)) =
          (y, v, xs) :: inWindow size (openers verb size xs) := by
        rw [openers, if_pos hlen.le, hy]
        simp [inWindow, hlen]
      rw [hcons, List.findSome?_cons] at hfind
      cases hobject : object xs x with
      | some c =>
        simp only [taken, hobject, Option.map_some, Option.some.injEq] at hfind
        subst hfind
        exact ⟨[], xs, rfl, hy, hlen, rfl, hobject, by simp⟩
      | none =>
        -- A later opener would not take it either.
        simp only [taken, hobject, Option.map_none] at hfind
        obtain ⟨pre, mid, hxs, holdest⟩ := ih hfind
        have hall := hmono (pre ++ [hit.first]) mid x _ holdest.takes
        rw [List.append_assoc, List.singleton_append, ← hxs, hobject] at hall
        cases hall
    · have hpass : inWindow size (openers verb size (y :: xs)) =
          inWindow size (openers verb size xs) := by
        rw [openers]
        split
        · cases hy : verb y with
          | none => rfl
          | some v =>
            have hlen : ¬ xs.length < size := fun hlt => hnear ⟨by rw [hy]; rfl, hlt⟩
            simp [inWindow, hlen]
        · rfl
      rw [hpass] at hfind
      obtain ⟨pre, mid, rfl, holdest⟩ := ih hfind
      exact ⟨y :: pre, mid, rfl, holdest.cons fun hy => Nat.not_lt.1 fun hlt => hnear ⟨hy, hlt⟩⟩

/-! ## What the search of a window finds -/

theorem firstObject_eq_none {xs : List α} : ∀ {between : List α},
    (∀ mid o post, xs = mid ++ o :: post → object (between ++ mid) o = none) →
      firstObject object between xs = none := by
  induction xs with
  | nil => exact fun _ => rfl
  | cons x xs ih =>
    intro between h
    have hx := h [] x xs rfl
    rw [List.append_nil] at hx
    rw [firstObject, hx]
    apply ih
    intro mid o post heq
    have := h (x :: mid) o post (by rw [heq]; rfl)
    rwa [List.append_assoc, List.singleton_append]

theorem firstObject_append {x : α} {c : γ} {post : List α} {mid : List α} :
    ∀ {between : List α},
      (∀ mid' o post', mid = mid' ++ o :: post' → object (between ++ mid') o = none) →
      object (between ++ mid) x = some c →
      firstObject object between (mid ++ x :: post) = some (x, c) := by
  induction mid with
  | nil =>
    intro between _ hx
    rw [List.append_nil] at hx
    rw [List.nil_append, firstObject, hx]
  | cons y mid ih =>
    intro between h hx
    have hy := h [] y mid rfl
    rw [List.append_nil] at hy
    rw [List.cons_append, firstObject, hy]
    apply ih
    · intro mid' o post' heq
      have := h (y :: mid') o post' (by rw [heq]; rfl)
      rwa [List.append_assoc, List.singleton_append]
    · rwa [List.append_assoc, List.singleton_append]

/-! ## The two searches agree -/

section Agree

variable {past : α → α → Bool}

/-- Elements that open nothing, or find nothing, are passed over. -/
theorem nested_append (rest : List α) {last : Option α} {pre : List α}
    (h : ∀ p u q, pre = p ++ u :: q → (verb u).isSome = true →
      last.all (fun o => past o u) = true →
      firstObject object [] ((q ++ rest).take size) = none) :
    nested verb object size past last (pre ++ rest) =
      nested verb object size past last rest := by
  induction pre with
  | nil => rfl
  | cons x pre ih =>
    have hrest := ih fun p u q heq => h (x :: p) u q (by rw [heq]; rfl)
    rw [List.cons_append, nested]
    split
    · rename_i hpast
      cases hx : verb x with
      | none => exact hrest
      | some v =>
        have hnone := h [] x pre rfl (by rw [hx]; rfl) hpast
        simp only [hnone]
        exact hrest
    · exact hrest

/-- Nothing in the window behind an opener is an object while the window lies in `xs`. -/
theorem Quiet.firstObject {pre rest : List α} {a : α} {mid : List α}
    (h : Quiet verb object size (pre ++ a :: mid)) (ha : (verb a).isSome = true)
    (hrest : size ≤ mid.length ∨ rest = []) :
    firstObject object [] ((mid ++ rest).take size) = none := by
  have hinside : (mid ++ rest).take size = mid.take size := by
    rcases hrest with hlen | rfl
    · exact List.take_append_of_le_length hlen
    · rw [List.append_nil]
  rw [hinside]
  apply firstObject_eq_none
  intro between o post heq
  have hlen : between.length < size := by
    have := congrArg List.length heq
    rw [List.length_take, List.length_append, List.length_cons] at this
    omega
  rw [List.nil_append]
  apply h pre a between o (post ++ mid.drop size) _ ha hlen
  have hmid : between ++ o :: (post ++ mid.drop size) = mid := by
    rw [← List.cons_append, ← List.append_assoc, ← heq, List.take_append_drop]
  rw [hmid]

theorem Quiet.snoc {xs : List α} {x : α} (h : Quiet verb object size xs)
    (hnone : (inWindow size (openers verb size xs)).findSome? (taken object x) = none) :
    Quiet verb object size (xs ++ [x]) := by
  intro pre a mid o post heq ha hmid
  rcases List.eq_nil_or_concat post with rfl | ⟨post', y, rfl⟩
  · have hsplit : xs ++ [x] = (pre ++ a :: mid) ++ [o] := by rw [heq]; simp
    obtain ⟨rfl, hx⟩ := List.append_inj' hsplit rfl
    obtain ⟨rfl, -⟩ := List.cons.inj hx
    obtain ⟨v, hv⟩ := Option.isSome_iff_exists.1 ha
    have htaken := List.findSome?_eq_none_iff.1 hnone _ (mem_inWindow_openers hv hmid)
    simpa [taken] using htaken
  · have hsplit : xs ++ [x] = (pre ++ a :: (mid ++ o :: post')) ++ [y] := by rw [heq]; simp
    obtain ⟨rfl, -⟩ := List.append_inj' hsplit rfl
    exact h pre a mid o post' rfl ha hmid

/-- `past` tells the elements behind an object from those up to it, as far as openers go. -/
structure Resumes (verb : α → Option β) (past : α → α → Bool) (xs : List α) : Prop where
  before : xs.Pairwise (fun x o => past o x = false)
  self : ∀ o ∈ xs, past o o = false
  behind : xs.Pairwise (fun o x => (verb x).isSome = true → past o x = true)

theorem Resumes.suffix {pre xs : List α} (h : Resumes verb past (pre ++ xs)) :
    Resumes verb past xs where
  before := (List.pairwise_append.1 h.before).2.1
  self := fun o ho => h.self o (List.mem_append_right _ ho)
  behind := (List.pairwise_append.1 h.behind).2.1

/-- From an opener that has its object at `x`, the search goes on behind `x`. -/
theorem nested_hit {pre mid todo : List α} {x : α} {last : Option α} {hit : Hit α β γ}
    (hquiet : Quiet verb object size (pre ++ hit.first :: mid))
    (holdest : Oldest verb object size x hit pre mid)
    (hpast : last.all (fun o => past o hit.first) = true)
    (hres : Resumes verb past (mid ++ x :: todo)) :
    nested verb object size past last (pre ++ hit.first :: mid ++ x :: todo) =
      hit :: nested verb object size past (some x) todo := by
  have hmid := holdest.near
  have hverb := holdest.opens
  have hfirst : firstObject object [] ((mid ++ x :: todo).take size) = some (x, hit.object) := by
    rw [List.take_append, List.take_of_length_le hmid.le,
      show size - mid.length = (size - mid.length - 1) + 1 by omega, List.take_succ_cons]
    apply firstObject_append _ holdest.takes
    intro mid' o post' heq
    apply hquiet pre hit.first mid' o post' (by rw [heq]) (by rw [hverb]; rfl)
    have := congrArg List.length heq
    rw [List.length_append, List.length_cons] at this
    omega
  have hskip : nested verb object size past (some x) (mid ++ x :: todo) =
      nested verb object size past (some x) todo := by
    have hsplit : mid ++ x :: todo = (mid ++ [x]) ++ todo := by simp
    rw [hsplit]
    apply nested_append
    intro p u q heq _ hpast'
    have hu : u ∈ mid ++ [x] := by rw [heq]; simp
    rcases List.mem_append.1 hu with hu | hu
    · have := (List.pairwise_append.1 hres.before).2.2 u hu x List.mem_cons_self
      simp [this] at hpast'
    · obtain rfl := List.mem_singleton.1 hu
      have := hres.self u (by simp)
      simp [this] at hpast'
  rw [List.append_assoc, List.cons_append, nested_append]
  · rw [nested, if_pos hpast, hverb]
    simp only [hfirst]
    rw [hskip]
    obtain ⟨first, v, l, c'⟩ := hit
    rw [← show l = x from holdest.last]
  · intro p u q heq hu _
    have hlen := holdest.far p u q heq hu
    rw [show q ++ hit.first :: (mid ++ x :: todo) = (q ++ hit.first :: mid) ++ x :: todo by simp]
    apply Quiet.firstObject _ hu (Or.inl hlen)
    · exact p
    · rw [heq, List.append_assoc, List.cons_append] at hquiet
      exact hquiet

/-- The invariant of the pass: what has been read since the last hit is quiet, and the openers
that are kept are its openers. -/
theorem stream_openers (hmono : Monotone object) (todo : List α) :
    ∀ (pend : List α) (last : Option α), Quiet verb object size pend →
      (∀ x ∈ pend ++ todo, (verb x).isSome = true → last.all (fun o => past o x) = true) →
      Resumes verb past (pend ++ todo) →
      stream verb object size (openers verb size pend) todo =
        nested verb object size past last (pend ++ todo) := by
  induction todo with
  | nil =>
    intro pend last hquiet _ _
    rw [stream, nested_append, nested]
    intro p u q heq hu _
    rw [heq] at hquiet
    exact hquiet.firstObject hu (Or.inr rfl)
  | cons x todo ih =>
    intro pend last hquiet hahead hres
    rw [stream]
    cases hfind : (inWindow size (openers verb size pend)).findSome? (taken object x) with
    | none =>
      have hsplit : pend ++ x :: todo = (pend ++ [x]) ++ todo := by simp
      rw [hsplit] at hahead hres ⊢
      rw [← openers_snoc]
      exact ih (pend ++ [x]) last (hquiet.snoc hfind) hahead hres
    | some hit =>
      obtain ⟨pre, mid, rfl, holdest⟩ := oldest_takes hmono pend hfind
      have hsome : (verb hit.first).isSome = true := by rw [holdest.opens]; rfl
      have hpast := hahead hit.first (by simp) hsome
      have hsplit : pre ++ hit.first :: mid ++ x :: todo =
          (pre ++ [hit.first]) ++ (mid ++ x :: todo) := by simp
      have hres' : Resumes verb past (mid ++ x :: todo) := (hsplit ▸ hres).suffix
      have hnext : Resumes verb past (x :: todo) := hres'.suffix
      have hrest : Resumes verb past ([x] ++ todo) := hnext
      rw [nested_hit hquiet holdest hpast hres']
      exact congrArg (hit :: ·) (ih [] (some x) (by simp [Quiet])
        (List.pairwise_cons.1 hnext.behind).1 hrest.suffix)

/-- One pass finds what the search of each window in turn finds. -/
theorem stream_eq_nested (hmono : Monotone object) {xs : List α} (hres : Resumes verb past xs) :
    stream verb object size [] xs = nested verb object size past none xs :=
  stream_openers hmono xs [] none (by simp [Quiet]) (fun _ _ _ => rfl) hres

end Agree

end Search

end EmbraOS.Verified.WindowSearch
