import EmbraOS.Ports.Reminders

/-!
# Every reminder once, and none too early

What a tick does is said once, in `checkReminders_eq`: the documents it goes
through are marked in place, except those whose update fails, and those whose
update is answered are handed over.  A marked document is never due again, so
the statements about runs follow by induction over the ticks.

`run_delivers` collects them for reminders and clocks in the years 0 to 9999.
Texts of later years are out of order, and `run_delivers_early` is a reminder
that is handed over some nine thousand years before its time.
-/

namespace EmbraOS.Ports.Reminders

open Verified.Serde
open Verified.SortedWindow
open Verified.Timestamps

/-! ## Documents -/

/-- A collection of reminders: every document has its own id, and its trigger is
the text of the time `due` gives for the id. -/
structure Holds (due : String → DateTime) (docs : List Json) : Prop where
  unique : (docs.map key).Nodup
  timed : ∀ d ∈ docs, ∃ id, key d = some id ∧ trigger d = some (due id).toRfc3339

theorem get?_markFired {k : String} (doc : Json) (now : String) (h₁ : k ≠ "fired")
    (h₂ : k ≠ "fired_at") : (markFired doc now).get? k = doc.get? k := by
  rw [markFired, Json.get?_merge doc (by simp), Json.get?_obj_cons, if_neg (Ne.symm h₁),
    Json.get?_obj_cons, if_neg (Ne.symm h₂)]
  rfl

@[simp] theorem key_markFired (doc : Json) (now : String) :
    key (markFired doc now) = key doc := by
  rw [key, get?_markFired doc now (by decide) (by decide), key]

@[simp] theorem trigger_markFired (doc : Json) (now : String) :
    trigger (markFired doc now) = trigger doc := by
  rw [trigger, get?_markFired doc now (by decide) (by decide), trigger]

theorem fired_markFired (doc : Json) (now : String) :
    (markFired doc now).get? "fired" = some (.bool true) := by
  rw [markFired, Json.get?_merge doc (by simp)]
  rfl

/-- A marked document is never due. -/
@[simp] theorem matchesDue_markFired (doc : Json) (now at_ : String) :
    matchesDue now (markFired doc at_) = false := by
  rw [matchesDue, fired_markFired]
  simp [asBool?]

variable {id now now' : String} {d : Json} {due : String → DateTime} {ids : List (Option String)}

variable {doc : Json} {docs : List Json} {at_ : String}

theorem docId_of_key (h : key doc = some id) :
    docId doc = some id := by
  unfold key at h
  unfold docId
  cases hget : doc.get? "_id" with
  | none =>
    rw [hget] at h
    cases h
  | some v =>
    rw [hget] at h
    exact h

theorem eq_of_key (hunique : (docs.map key).Nodup) {d' : Json}
    (hd : d ∈ docs) (hd' : d' ∈ docs) (h : key d = key d') : d = d' :=
  List.inj_on_of_nodup_map hunique hd hd' h

/-! ## Marking in place -/

/-- The documents with these ids are marked. -/
def mark (now : String) (ids : List (Option String)) (docs : List Json) : List Json :=
  docs.map (fun d => if key d ∈ ids then markFired d now else d)

@[simp] theorem map_key_mark (now : String) (ids : List (Option String)) (docs : List Json) :
    (mark now ids docs).map key = docs.map key := by
  rw [mark, List.map_map]
  apply List.map_congr_left
  intro d _
  show key (if key d ∈ ids then markFired d now else d) = key d
  split
  · exact key_markFired d now
  · rfl

theorem Holds.mark (h : Holds due docs)
    (now : String) (ids : List (Option String)) : Holds due (mark now ids docs) := by
  constructor
  · rw [map_key_mark]
    exact h.unique
  intro d hd
  obtain ⟨d₀, hd₀, rfl⟩ := List.mem_map.1 hd
  obtain ⟨id, hkey, htrigger⟩ := h.timed d₀ hd₀
  refine ⟨id, ?_, ?_⟩
  · split
    · rwa [key_markFired]
    · exact hkey
  · split
    · rwa [trigger_markFired]
    · exact htrigger

theorem mem_mark_of_notMem (now : String) (hd : d ∈ docs) (h : key d ∉ ids) :
    d ∈ mark now ids docs :=
  List.mem_map.2 ⟨d, hd, if_neg h⟩

theorem mem_mark_of_mem (now : String) (hd : d ∈ docs) (h : key d ∈ ids) :
    markFired d now ∈ mark now ids docs :=
  List.mem_map.2 ⟨d, hd, if_pos h⟩

/-- What is due after marking was there before and is not marked. -/
theorem of_mem_mark_of_due (hd : d ∈ mark now ids docs)
    (hdue : matchesDue at_ d = true) : d ∈ docs ∧ key d ∉ ids := by
  obtain ⟨d₀, hd₀, rfl⟩ := List.mem_map.1 hd
  by_cases hmem : key d₀ ∈ ids
  · rw [if_pos hmem, matchesDue_markFired] at hdue
    cases hdue
  · rw [if_neg hmem]
    exact ⟨hd₀, hmem⟩

/-- The update of a document as it stands marks it. -/
theorem put_eq_mark (hunique : (docs.map key).Nodup)
    (hdoc : doc ∈ docs) (hkey : key doc = some id) (now : String) :
    put id (markFired doc now) docs = mark now [key doc] docs := by
  apply List.map_congr_left
  intro d hd
  by_cases h : key d = some id
  · have hin : key d ∈ [key doc] := List.mem_singleton.2 (h.trans hkey.symm)
    rw [if_pos h, if_pos hin, eq_of_key hunique hd hdoc (h.trans hkey.symm)]
  · have hout : key d ∉ [key doc] := by
      rw [List.mem_singleton, hkey]
      exact h
    rw [if_neg h, if_neg hout]

theorem mark_mark (now : String) (ids : List (Option String)) {k : Option String}
    (h : k ∉ ids) (docs : List Json) :
    mark now ids (mark now [k] docs) = mark now (k :: ids) docs := by
  simp only [mark, List.map_map]
  apply List.map_congr_left
  intro d _
  by_cases hk : key d = k
  · simp [hk, h]
  · simp [hk]

theorem mark_nil (now : String) (docs : List Json) : mark now [] docs = docs := by
  simp [mark]

/-! ## One tick -/

/-- The reply to the update of a document. -/
def replyTo (tick : Tick) (doc : Json) : Option Reply := (docId doc).map tick.reply

/-- The ids of the documents that a tick marks. -/
def markedKeys (tick : Tick) (docs : List Json) : List (Option String) :=
  (docs.filter (fun d => replyTo tick d ≠ some .failed)).map key

def deliveryOf (tick : Tick) (doc : Json) : Option Delivery :=
  match docId doc with
  | none => none
  | some id => if tick.reply id = .stored then some ⟨id, firedReminder doc⟩ else none

/-- The loop over documents of the store with ids of their own. -/
theorem foldl_fire (tick : Tick) (todo : List Json) :
    ∀ (docs : List Json) (out : List Delivery), Holds due docs → (∀ d ∈ todo, d ∈ docs) →
      (todo.map key).Nodup →
      todo.foldl (fire tick.now.toRfc3339 tick.reply) (docs, out) =
        (mark tick.now.toRfc3339 (markedKeys tick todo) docs,
          out ++ todo.filterMap (deliveryOf tick)) := by
  induction todo with
  | nil =>
    intro docs out _ _ _
    rw [List.foldl_nil, markedKeys, List.filter_nil, List.map_nil, mark_nil,
      List.filterMap_nil, List.append_nil]
  | cons doc todo ih =>
    intro docs out hholds hmem hnodup
    rw [List.map_cons, List.nodup_cons] at hnodup
    have hdoc := hmem doc List.mem_cons_self
    obtain ⟨id, hkey, -⟩ := hholds.timed doc hdoc
    have hid := docId_of_key hkey
    have htodo : ∀ d ∈ todo, d ∈ docs := fun d hd => hmem d (List.mem_cons_of_mem doc hd)
    -- The documents still to come are not the one that is marked.
    have hlater : ∀ d ∈ todo, d ∈ mark tick.now.toRfc3339 [key doc] docs := by
      intro d hd
      apply mem_mark_of_notMem _ (htodo d hd)
      rw [List.mem_singleton]
      intro heq
      exact hnodup.1 (heq ▸ List.mem_map_of_mem hd)
    have hfresh : key doc ∉ markedKeys tick todo := by
      intro hin
      apply hnodup.1
      obtain ⟨d, hd, heq⟩ := List.mem_map.1 hin
      exact heq ▸ List.mem_map_of_mem (List.mem_of_mem_filter hd)
    rw [List.foldl_cons, List.filterMap_cons, deliveryOf, hid, fire, hid]
    dsimp only
    cases hreply : tick.reply id with
    | failed =>
      have hmarked : markedKeys tick (doc :: todo) = markedKeys tick todo := by
        simp [markedKeys, replyTo, hid, hreply]
      rw [ih docs out hholds htodo hnodup.2, hmarked]
      rfl
    | unanswered =>
      have hmarked : markedKeys tick (doc :: todo) = key doc :: markedKeys tick todo := by
        simp [markedKeys, replyTo, hid, hreply]
      rw [put_eq_mark hholds.unique hdoc hkey,
        ih _ out (hholds.mark _ _) hlater hnodup.2, mark_mark _ _ hfresh, hmarked]
      rfl
    | stored =>
      have hmarked : markedKeys tick (doc :: todo) = key doc :: markedKeys tick todo := by
        simp [markedKeys, replyTo, hid, hreply]
      rw [put_eq_mark hholds.unique hdoc hkey,
        ih _ _ (hholds.mark _ _) hlater hnodup.2, mark_mark _ _ hfresh, hmarked,
        List.append_assoc]
      rfl

theorem subperm_dueReminders (docs : List Json) (now : String) (max : Nat) :
    (dueReminders docs now max).Subperm docs := by
  unfold dueReminders
  refine (((List.take_sublist _ _).map Prod.snd).subperm.trans
    ((List.perm_insertionSort _ _).map Prod.snd).subperm).trans ?_
  have hfilter : ∀ xs : List Json, ((xs.filterMap (fun doc =>
      (trigger doc).bind (fun t => if t ≠ "" ∧ t ≤ now then some (t, doc) else none))).map
        Prod.snd).Sublist xs := by
    intro xs
    induction xs with
    | nil => exact List.Sublist.slnil
    | cons d xs ih =>
      rw [List.filterMap_cons]
      cases hd : (trigger d).bind (fun t => if t ≠ "" ∧ t ≤ now then some (t, d) else none)
      with
      | none => exact ih.cons d
      | some p =>
        obtain ⟨t, -, ht⟩ := Option.bind_eq_some_iff.1 hd
        have hp : p.2 = d := by
          split at ht
          · rw [← Option.some.inj ht]
          · cases ht
        rw [List.map_cons, hp]
        exact ih.cons_cons d
  exact ((hfilter _).trans List.filter_sublist).subperm

theorem subperm_selected (docs : List Json) (tick : Tick) : (selected docs tick).Subperm docs := by
  unfold selected
  split
  · exact List.nil_subperm
  · exact (subperm_dueReminders _ _ _).trans
      ((subperm_window _ _ _).trans List.filter_sublist.subperm)

theorem mem_queryDue_of_mem_selected {tick : Tick} (h : d ∈ selected docs tick) :
    d ∈ queryDue docs tick.now.toRfc3339 reminderWindow := by
  unfold selected at h
  split at h
  · cases h
  · exact (subperm_dueReminders _ _ _).subset h

theorem matchesDue_of_mem_queryDue {limit : Nat}
    (h : d ∈ queryDue docs now limit) : d ∈ docs ∧ matchesDue now d = true :=
  List.mem_filter.1 (mem_of_mem_window h)

theorem due_of_mem_selected {tick : Tick}
    (h : d ∈ selected docs tick) : d ∈ docs ∧ matchesDue tick.now.toRfc3339 d = true :=
  matchesDue_of_mem_queryDue (mem_queryDue_of_mem_selected h)

section

variable (h : Holds due docs)
include h

theorem nodup_selected (tick : Tick) : ((selected docs tick).map key).Nodup := by
  obtain ⟨l, hperm, hsublist⟩ := subperm_selected docs tick
  exact (hperm.map key).nodup_iff.1 ((hsublist.map key).nodup h.unique)

/-- **One tick**: the documents it goes through are marked in place, except those
whose update failed, and those whose update was answered are handed over. -/
theorem checkReminders_eq (tick : Tick) :
    checkReminders docs tick =
      (mark tick.now.toRfc3339 (markedKeys tick (selected docs tick)) docs,
        (selected docs tick).filterMap (deliveryOf tick)) := by
  rw [checkReminders, foldl_fire tick _ docs [] h
    (fun d hd => (subperm_selected docs tick).subset hd) (nodup_selected h tick), List.nil_append]

theorem Holds.tick (tick : Tick) : Holds due (checkReminders docs tick).1 := by
  rw [checkReminders_eq h]
  exact h.mark _ _

/-- What a tick hands over was due, its mark is stored, and the answer came. -/
theorem mem_delivered {tick : Tick} {e : Delivery} (he : e ∈ (checkReminders docs tick).2) :
    ∃ d ∈ selected docs tick, key d = some e.id ∧ e.reminder = firedReminder d ∧
      tick.reply e.id = .stored ∧
      markFired d tick.now.toRfc3339 ∈ (checkReminders docs tick).1 := by
  rw [checkReminders_eq h] at he ⊢
  obtain ⟨d, hd, hdel⟩ := List.mem_filterMap.1 he
  have hdocs := (due_of_mem_selected hd).1
  obtain ⟨id, hkey, -⟩ := h.timed d hdocs
  have hid := docId_of_key hkey
  unfold deliveryOf at hdel
  rw [hid] at hdel
  dsimp only at hdel
  split at hdel
  · rename_i hstored
    obtain rfl := Option.some.inj hdel
    refine ⟨d, hd, hkey, rfl, hstored, mem_mark_of_mem _ hdocs ?_⟩
    apply List.mem_map_of_mem
    apply List.mem_filter.2
    simp [hd, replyTo, hid, hstored]
  · cases hdel

theorem nodup_delivered (tick : Tick) : ((checkReminders docs tick).2.map Delivery.id).Nodup := by
  rw [checkReminders_eq h]
  have hsome : ∀ ds : List Json, (∀ d ∈ ds, d ∈ docs) →
      (((ds.filterMap (deliveryOf tick)).map Delivery.id).map some).Sublist (ds.map key) := by
    intro ds
    induction ds with
    | nil => exact fun _ => List.Sublist.slnil
    | cons d ds ih =>
      intro hmem
      obtain ⟨id, hkey, -⟩ := h.timed d (hmem d List.mem_cons_self)
      have hrest := ih (fun d' hd' => hmem d' (List.mem_cons_of_mem d hd'))
      rw [List.filterMap_cons, deliveryOf, docId_of_key hkey, List.map_cons]
      dsimp only
      split
      · exact hrest.cons _
      · rename_i e he
        have hid : some e.id = key d := by
          split at he
          · rw [← Option.some.inj he, hkey]
          · cases he
        rw [List.map_cons, List.map_cons, hid]
        exact hrest.cons_cons _
  have hsub := hsome _ fun d hd => (subperm_selected docs tick).subset hd
  exact (hsub.nodup (nodup_selected h tick)).of_map some

/-- A document whose update failed is in the store as it was and is not handed
over by the tick. -/
theorem failed_waits {tick : Tick} (hd : d ∈ selected docs tick)
    (hkey : key d = some id) (hfailed : tick.reply id = .failed) :
    d ∈ (checkReminders docs tick).1 ∧ id ∉ (checkReminders docs tick).2.map Delivery.id := by
  have hdocs := (due_of_mem_selected hd).1
  constructor
  · rw [checkReminders_eq h]
    apply mem_mark_of_notMem _ hdocs
    intro hin
    obtain ⟨d', hd', heq⟩ := List.mem_map.1 hin
    have hsel := List.mem_of_mem_filter hd'
    obtain rfl := eq_of_key h.unique (due_of_mem_selected hsel).1 hdocs heq
    have hreply := (List.mem_filter.1 hd').2
    simp [replyTo, docId_of_key hkey, hfailed] at hreply
  · intro hin
    obtain ⟨e, he, rfl⟩ := List.mem_map.1 hin
    obtain ⟨d', -, -, -, hstored, -⟩ := mem_delivered h he
    rw [hfailed] at hstored
    cases hstored

end

/-! ## Due again -/

theorem matchesDue_mono (hle : now ≤ now')
    (h : matchesDue now d = true) : matchesDue now' d = true := by
  rw [matchesDue, Bool.and_eq_true, Option.any_eq_true] at h ⊢
  obtain ⟨⟨t, ht, hnow⟩, hfired⟩ := h
  refine ⟨⟨t, ht, ?_⟩, hfired⟩
  rw [decide_eq_true_eq] at hnow ⊢
  exact le_trans hnow hle

theorem nodup_sortKey (h : Holds due docs) : (docs.map sortKey).Nodup := by
  apply List.Nodup.map_on _ (List.Nodup.of_map key h.unique)
  intro a ha b hb heq
  obtain ⟨ia, hka, -⟩ := h.timed a ha
  obtain ⟨ib, hkb, -⟩ := h.timed b hb
  apply eq_of_key h.unique ha hb
  have hids : (key a).getD "" = (key b).getD "" := congrArg (fun k => (ofLex k).2) heq
  rw [hka, hkb] at hids ⊢
  exact congrArg some hids

/-- What sorts before a due document has its trigger behind it too. -/
theorem matchesDue_of_sortKey_lt {y : Json}
    (hlt : sortKey y < sortKey d) (hd : matchesDue now d = true)
    (hy : matchesDue now' y = true) : matchesDue now y = true := by
  rw [matchesDue, Bool.and_eq_true, Option.any_eq_true] at hd hy ⊢
  obtain ⟨⟨td, htd, hnow⟩, -⟩ := hd
  obtain ⟨⟨ty, hty, -⟩, hfired⟩ := hy
  refine ⟨⟨ty, hty, ?_⟩, hfired⟩
  rw [decide_eq_true_eq] at hnow ⊢
  have hle : ty ≤ td := by
    rw [sortKey, sortKey, hty, htd, Prod.Lex.toLex_lt_toLex] at hlt
    rcases hlt with hlt | ⟨heq, -⟩
    · exact le_of_lt hlt
    · exact le_of_eq heq
  exact le_trans hle hnow

/-- A due document of the window that a tick left as it was is in the window of
every later query: nothing new can have come before it. -/
theorem mem_queryDue_again (h : Holds due docs) {tick : Tick} (hle : tick.now.toRfc3339 ≤ now')
    (hd : d ∈ queryDue docs tick.now.toRfc3339 reminderWindow)
    (hstays : d ∈ (checkReminders docs tick).1) :
    d ∈ queryDue (checkReminders docs tick).1 now' reminderWindow := by
  have hdue := (matchesDue_of_mem_queryDue hd).2
  apply mem_window_of_count hd
  · exact (List.filter_sublist.map sortKey).nodup (nodup_sortKey (h.tick tick))
  · exact List.mem_filter.2 ⟨hstays, matchesDue_mono hle hdue⟩
  rw [before, before, List.countP_filter, List.countP_filter, checkReminders_eq h, mark,
    List.countP_map]
  apply List.countP_mono_left
  intro y _
  simp only [Function.comp_apply, Bool.and_eq_true, decide_eq_true_eq]
  rintro ⟨hlt, hy⟩
  split at hy
  · rw [matchesDue_markFired] at hy
    cases hy
  · rename_i hout
    rw [if_neg hout] at hlt
    exact ⟨hlt, matchesDue_of_sortKey_lt hlt hdue hy⟩

theorem toRfc3339_ne_empty (t : DateTime) : t.toRfc3339 ≠ "" := by
  intro h
  have hlist := congrArg String.toList h
  rw [DateTime.toRfc3339, String.toList_ofList, DateTime.chars, DateTime.afterYear] at hlist
  simp at hlist

theorem mem_dueReminders {t : String} {max : Nat}
    (hd : d ∈ docs) (hlen : docs.length ≤ max) (ht : trigger d = some t) (hne : t ≠ "")
    (hdue : matchesDue now d = true) : d ∈ dueReminders docs now max := by
  rw [matchesDue, Bool.and_eq_true, ht, Option.any_some, decide_eq_true_eq] at hdue
  have hnot : notFired d = true := by
    unfold notFired
    cases hf : d.get? "fired" with
    | none => rfl
    | some v =>
      have hfalse : (some v).bind asBool? = some false := by simpa [hf] using hdue.2
      rw [hfalse]
      rfl
  unfold dueReminders
  dsimp only
  rw [List.take_of_length_le]
  · apply List.mem_map.2
    refine ⟨(t, d), (List.perm_insertionSort _ _).mem_iff.2 ?_, rfl⟩
    apply List.mem_filterMap.2
    exact ⟨d, List.mem_filter.2 ⟨hd, hnot⟩, by rw [ht, Option.bind_some, if_pos ⟨hne, hdue.1⟩]⟩
  · rw [List.length_insertionSort]
    exact le_trans (List.length_filterMap_le _ _)
      (le_trans (List.length_filter_le _ _) hlen)

/-! ## Runs -/

theorem run_append (docs : List Json) (before after : List Tick) :
    run docs (before ++ after) =
      ((run (run docs before).1 after).1,
        (run docs before).2 ++ (run (run docs before).1 after).2) := by
  induction before generalizing docs with
  | nil => rfl
  | cons tick before ih => simp [run, ih]

theorem Holds.run (ticks : List Tick) :
    ∀ docs : List Json, Holds due docs → Holds due (run docs ticks).1 := by
  induction ticks with
  | nil => exact fun _ h => h
  | cons tick ticks ih => exact fun docs h => ih _ (h.tick tick)

/-- A marked document stays as it is. -/
theorem marked_stays (ticks : List Tick) :
    ∀ docs : List Json, Holds due docs → markFired d at_ ∈ docs →
      markFired d at_ ∈ (run docs ticks).1 := by
  induction ticks with
  | nil => exact fun _ _ h => h
  | cons tick ticks ih =>
    intro docs h hmem
    apply ih _ (h.tick tick)
    rw [checkReminders_eq h]
    apply mem_mark_of_notMem _ hmem
    intro hin
    obtain ⟨d', hd', heq⟩ := List.mem_map.1 hin
    have hsel := due_of_mem_selected (List.mem_of_mem_filter hd')
    rw [eq_of_key h.unique hsel.1 hmem heq, matchesDue_markFired] at hsel
    cases hsel.2

/-- What a run hands over was in the store and due, and its mark is stored. -/
theorem mem_run (ticks : List Tick) :
    ∀ docs : List Json, Holds due docs → ∀ e ∈ (run docs ticks).2,
      e.1 ∈ ticks ∧ ∃ d ∈ docs, key d = some e.2.id ∧
        matchesDue e.1.now.toRfc3339 d = true ∧ e.2.reminder = firedReminder d ∧
        e.1.reply e.2.id = .stored ∧
        markFired d e.1.now.toRfc3339 ∈ (run docs ticks).1 := by
  induction ticks with
  | nil => exact fun _ _ e he => absurd he List.not_mem_nil
  | cons tick ticks ih =>
    intro docs h e he
    rcases List.mem_append.1 he with he | he
    · obtain ⟨e₁, he₁, rfl⟩ := List.mem_map.1 he
      obtain ⟨d, hd, hkey, hreminder, hstored, hmark⟩ := mem_delivered h he₁
      have hdue := due_of_mem_selected hd
      exact ⟨List.mem_cons_self, d, hdue.1, hkey, hdue.2, hreminder, hstored,
        marked_stays ticks _ (h.tick tick) hmark⟩
    · obtain ⟨htick, d, hd, hkey, hdue, hrest⟩ := ih _ (h.tick tick) e he
      rw [checkReminders_eq h] at hd
      exact ⟨List.mem_cons_of_mem tick htick, d, (of_mem_mark_of_due hd hdue).1, hkey,
        hdue, hrest⟩

theorem nodup_run (ticks : List Tick) :
    ∀ docs : List Json, Holds due docs → ((run docs ticks).2.map (fun e => e.2.id)).Nodup := by
  induction ticks with
  | nil => exact fun _ _ => List.nodup_nil
  | cons tick ticks ih =>
    intro docs h
    show ((((checkReminders docs tick).2.map (fun d => (tick, d))) ++
      (run (checkReminders docs tick).1 ticks).2).map (fun e => e.2.id)).Nodup
    rw [List.map_append, List.map_map, List.nodup_append]
    refine ⟨nodup_delivered h tick, ih _ (h.tick tick), ?_⟩
    -- A reminder of this tick is marked, one of a later tick is due then.
    intro a ha b hb hab
    obtain ⟨e, he, rfl⟩ := List.mem_map.1 ha
    obtain ⟨e', he', rfl⟩ := List.mem_map.1 hb
    obtain ⟨d, -, hkey, -, -, hmark⟩ := mem_delivered h he
    obtain ⟨-, d', hd', hkey', hdue, -⟩ := mem_run ticks _ (h.tick tick) e' he'
    have heq : d' = markFired d tick.now.toRfc3339 := by
      apply eq_of_key (h.tick tick).unique hd' hmark
      rw [hkey', key_markFired, hkey]
      exact congrArg some hab.symm
    rw [heq, matchesDue_markFired] at hdue
    cases hdue

/-- Every reminder stays in the store: as it was, or marked by a tick whose update
did not fail. -/
theorem run_keeps (hkey : key d = some id) (ticks : List Tick) :
    ∀ docs : List Json, Holds due docs → d ∈ docs →
      d ∈ (run docs ticks).1 ∨ ∃ tick ∈ ticks, tick.reply id ≠ .failed ∧
        markFired d tick.now.toRfc3339 ∈ (run docs ticks).1 := by
  induction ticks with
  | nil => exact fun _ _ hd => Or.inl hd
  | cons tick ticks ih =>
    intro docs h hd
    have hnext : (checkReminders docs tick).1 =
        mark tick.now.toRfc3339 (markedKeys tick (selected docs tick)) docs := by
      rw [checkReminders_eq h]
    by_cases hin : key d ∈ markedKeys tick (selected docs tick)
    · have hmark := mem_mark_of_mem tick.now.toRfc3339 hd hin
      rw [← hnext] at hmark
      refine Or.inr ⟨tick, List.mem_cons_self, ?_, marked_stays ticks _ (h.tick tick) hmark⟩
      obtain ⟨d', hd', heq⟩ := List.mem_map.1 hin
      have hreply := (List.mem_filter.1 hd').2
      rw [replyTo, docId_of_key (heq.trans hkey)] at hreply
      simpa using hreply
    · have hstays := mem_mark_of_notMem tick.now.toRfc3339 hd hin
      rw [← hnext] at hstays
      rcases ih _ (h.tick tick) hstays with hleft | ⟨tick', htick', hrest⟩
      · exact Or.inl hleft
      · exact Or.inr ⟨tick', List.mem_cons_of_mem tick htick', hrest⟩

/-- **Every reminder once, never early, and never lost.**  For every collection of
reminders and every sequence of ticks at times that do not decrease, all in the
years 0 to 9999, however the database answers: no reminder is handed over twice;
one that is handed over was due, the answer to its update came, and its mark is in
the store; every reminder stays in the store, as it was or marked; and one whose
mark failed has not been handed over and is due at the next tick. -/
theorem run_delivers (due : String → DateTime) (docs : List Json) (ticks : List Tick)
    (hholds : Holds due docs)
    (hdue : ∀ d ∈ docs, ∀ id, key d = some id → (due id).FourDigit)
    (hclock : ∀ tick ∈ ticks, tick.now.FourDigit)
    (hmono : ticks.Pairwise (fun a b => a.now.NotAfter b.now)) :
    ((run docs ticks).2.map (fun e => e.2.id)).Nodup ∧
    (∀ e ∈ (run docs ticks).2, ∃ d ∈ docs, key d = some e.2.id ∧
      e.2.reminder = firedReminder d ∧ (due e.2.id).NotAfter e.1.now ∧
      e.1.reply e.2.id = .stored ∧
      markFired d e.1.now.toRfc3339 ∈ (run docs ticks).1) ∧
    (∀ d ∈ docs, ∀ id, key d = some id → d ∈ (run docs ticks).1 ∨
      ∃ tick ∈ ticks, tick.reply id ≠ .failed ∧
        markFired d tick.now.toRfc3339 ∈ (run docs ticks).1) ∧
    ∀ before tick next after, ticks = before ++ tick :: next :: after →
      ∀ d ∈ selected (run docs before).1 tick, ∀ id, key d = some id →
        tick.reply id = .failed →
        id ∉ (run docs (before ++ [tick])).2.map (fun e => e.2.id) ∧
        d ∈ dueReminders
          (queryDue (run docs (before ++ [tick])).1 next.now.toRfc3339 reminderWindow)
          next.now.toRfc3339 reminderWindow := by
  refine ⟨nodup_run ticks docs hholds, ?_, ?_, ?_⟩
  · intro e he
    obtain ⟨htick, d, hd, hkey, hmatch, hreminder, hstored, hmark⟩ :=
      mem_run ticks docs hholds e he
    refine ⟨d, hd, hkey, hreminder, ?_, hstored, hmark⟩
    obtain ⟨id, hid, htrigger⟩ := hholds.timed d hd
    obtain rfl : e.2.id = id := Option.some.inj (hkey.symm.trans hid)
    rw [matchesDue, htrigger, Option.any_some, Bool.and_eq_true, decide_eq_true_eq] at hmatch
    exact (DateTime.toRfc3339_le_iff (hdue d hd _ hkey) (hclock e.1 htick)).1 hmatch.1
  · exact fun d hd id hkey => run_keeps hkey ticks docs hholds hd
  · intro before tick next after hticks d hd id hkey hfailed
    have hmid : Holds due (run docs before).1 := Holds.run before docs hholds
    obtain ⟨hstays, hnot⟩ := failed_waits hmid hd hkey hfailed
    have hrun : run docs (before ++ [tick]) =
        ((checkReminders (run docs before).1 tick).1,
          (run docs before).2 ++
            (checkReminders (run docs before).1 tick).2.map (fun e => (tick, e))) := by
      rw [run_append]
      simp [run]
    rw [hrun]
    have hquery := mem_queryDue_of_mem_selected hd
    constructor
    · -- Not by an earlier tick, which would have marked it; not by this one.
      rw [List.map_append, List.mem_append, not_or]
      constructor
      · intro hin
        obtain ⟨e, he, rfl⟩ := List.mem_map.1 hin
        obtain ⟨-, d', -, hkey', -, -, -, hmark⟩ := mem_run before docs hholds e he
        have hdue' := due_of_mem_selected hd
        have heq : d = markFired d' e.1.now.toRfc3339 := by
          apply eq_of_key hmid.unique hdue'.1 hmark
          rw [hkey, key_markFired, hkey']
        rw [heq, matchesDue_markFired] at hdue'
        cases hdue'.2
      · rw [List.map_map]
        exact hnot
    · have hnext : tick.now.NotAfter next.now := by
        rw [hticks] at hmono
        exact List.rel_of_pairwise_cons (List.pairwise_append.1 hmono).2.1 List.mem_cons_self
      have hle : tick.now.toRfc3339 ≤ next.now.toRfc3339 := by
        rw [DateTime.toRfc3339_le_iff]
        · exact hnext
        · exact hclock tick (by rw [hticks]; simp)
        · exact hclock next (by rw [hticks]; simp)
      have hagain := mem_queryDue_again hmid hle hquery hstays
      obtain ⟨id', -, htrigger⟩ := (hmid.tick tick).timed d hstays
      apply mem_dueReminders hagain _ htrigger (toRfc3339_ne_empty _)
        (matchesDue_of_mem_queryDue hagain).2
      rw [queryDue, window, List.length_take]
      exact Nat.min_le_left _ _

/-- Noon of the first day of a year. -/
def newYear (year : Int) : DateTime :=
  ⟨year, 1, 1, 12, 0, 0, 0, by decide, by decide, by decide, by decide, by decide, by decide⟩

/-- A store of one reminder, and a tick that finds the database well. -/
def oneReminder (year : Int) : List Json :=
  [reminderDoc "r1" "Check the build" (newYear year) (newYear 2026) false]

def goodTick (year : Int) : Tick := ⟨newYear year, 4, true, fun _ => .stored⟩

theorem holds_oneReminder (year : Int) : Holds (fun _ => newYear year) (oneReminder year) := by
  constructor
  · simp [oneReminder]
  · intro d hd
    rw [List.mem_singleton.1 hd]
    exact ⟨"r1", rfl, rfl⟩

theorem run_delivers_once :
    ((run (oneReminder 2026) [goodTick 2026, goodTick 2027]).2.map (fun e => e.2.id)).Nodup :=
  (run_delivers (fun _ => newYear 2026) (oneReminder 2026) [goodTick 2026, goodTick 2027]
    (holds_oneReminder 2026) (fun _ _ _ _ => by decide) (by decide) (by decide)).1

/-- `countdown 300000000000s` in 2026 asks for the year 11532; the next tick hands
the reminder over. -/
theorem run_delivers_early :
    Holds (fun _ => newYear 11532) (oneReminder 11532) ∧
      (run (oneReminder 11532) [goodTick 2026]).2.map (fun e => e.2.id) = ["r1"] ∧
      ¬ (newYear 11532).NotAfter (goodTick 2026).now := by
  refine ⟨holds_oneReminder 11532, ?_, by decide⟩
  decide +kernel

end EmbraOS.Ports.Reminders
