import Mathlib.Data.List.Nodup
import EmbraOS.Verified.Text

/-!
# Header lists with distinct lower-case names

A name that is its own ASCII lower case, and a list of headers in which no
name comes twice.  `Headers.set` is the one way to add a header: it takes the
place of any header of that name, so a list with two headers that differ only
in case cannot be built.  `mem_set` says what is in the list afterwards.
-/

namespace EmbraOS.Verified

open Text

/-- A text in ASCII lower case. -/
abbrev LowerName : Type := { s : String // toAsciiLowercase s = s }

def LowerName.ofText (s : String) : LowerName :=
  ⟨toAsciiLowercase s, toAsciiLowercase_toAsciiLowercase s⟩

structure Headers where
  entries : List (LowerName × String)
  nodup : (entries.map Prod.fst).Nodup

namespace Headers

def empty : Headers := ⟨[], List.nodup_nil⟩

/-- Drop the headers of that name, then add the new one at the end. -/
def set (hs : Headers) (name : LowerName) (value : String) : Headers where
  entries := hs.entries.filter (fun h => h.1 ≠ name) ++ [(name, value)]
  nodup := by
    rw [List.map_append, List.nodup_append]
    refine ⟨hs.nodup.sublist (List.filter_sublist.map _), by simp, ?_⟩
    intro a ha b hb hab
    obtain ⟨h, hh, rfl⟩ := List.mem_map.1 ha
    obtain rfl : b = name := by simpa using hb
    simpa [hab] using (List.mem_filter.1 hh).2

@[simp] theorem entries_empty : empty.entries = [] := rfl

theorem mem_set {hs : Headers} {name : LowerName} {value : String}
    {h : LowerName × String} :
    h ∈ (hs.set name value).entries ↔
      h = (name, value) ∨ h ∈ hs.entries ∧ h.1 ≠ name := by
  simp only [set, List.mem_append, List.mem_filter, List.mem_singleton,
    decide_eq_true_iff]
  exact or_comm

/-- No two headers have one name, upper and lower case not told apart. -/
theorem nodup_lower (hs : Headers) :
    (hs.entries.map (fun h => toAsciiLowercase h.1.1)).Nodup := by
  have hsame : hs.entries.map (fun h => toAsciiLowercase h.1.1) =
      (hs.entries.map Prod.fst).map Subtype.val := by
    rw [List.map_map]
    exact List.map_congr_left (fun h _ => h.1.2)
  rw [hsame]
  exact hs.nodup.map Subtype.val_injective

end Headers

end EmbraOS.Verified
