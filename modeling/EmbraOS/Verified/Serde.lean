/-!
# JSON values

The value type of the host's JSON library.  An object is a list of members;
the library keeps the keys of a map distinct, and nothing here assumes it.
Reading and writing JSON text is the library's and is a parameter of the
ports that call it.

`merge` is a document update that overwrites the members it names;
`get?_merge` says what every member is afterwards.
-/

namespace EmbraOS.Verified.Serde

/-- A JSON number as the library stores it. -/
inductive Number where
  | posInt (n : Nat)
  | negInt (n : Int)
  /-- The bits of a double. -/
  | float (bits : Nat)
  deriving DecidableEq, Repr

/-- `serde_json::Value`. -/
inductive Json where
  | null
  | bool (b : Bool)
  | num (n : Number)
  | str (s : String)
  | arr (items : List Json)
  | obj (members : List (String × Json))
  deriving Repr

namespace Json

/-- A member of an object by its key; `none` for anything else. -/
def get? (v : Json) (key : String) : Option Json :=
  match v with
  | .obj members => (members.find? (fun m => m.1 == key)).map Prod.snd
  | _ => none

def asStr? : Json → Option String
  | .str s => some s
  | _ => none

def asObject? : Json → Option (List (String × Json))
  | .obj members => some members
  | _ => none

/-- `as_u64`: a non-negative integer. -/
def asU64? : Json → Option Nat
  | .num (.posInt n) => some n
  | _ => none

def asArray? : Json → Option (List Json)
  | .arr items => some items
  | _ => none

def asBool? : Json → Option Bool
  | .bool b => some b
  | _ => none

/-- `v[key]`: null where there is no such member. -/
def index (v : Json) (key : String) : Json := (v.get? key).getD .null

def isNull : Json → Bool
  | .null => true
  | _ => false

/-! ## Updates -/

/-- Replace the value under a key, or add the member at the end. -/
def setMember : List (String × Json) → String → Json → List (String × Json)
  | [], key, v => [(key, v)]
  | m :: members, key, v =>
    if m.1 = key then (key, v) :: members else m :: setMember members key v

/-- The members of `patch` overwrite those of `doc`, which is taken as an
empty object when it is none. -/
def merge (doc patch : Json) : Json :=
  match patch with
  | .obj updates =>
    .obj (updates.foldl (fun ms u => setMember ms u.1 u.2) (doc.asObject?.getD []))
  | patch => patch

theorem get?_obj_cons (m : String × Json) (members : List (String × Json))
    (key : String) :
    (obj (m :: members)).get? key =
      if m.1 = key then some m.2 else (obj members).get? key := by
  by_cases h : m.1 = key
  · simp [get?, h]
  · simp [get?, h]

theorem get?_setMember (members : List (String × Json)) (k : String) (v : Json)
    (key : String) :
    (obj (setMember members k v)).get? key =
      if k = key then some v else (obj members).get? key := by
  induction members with
  | nil =>
    rw [setMember, get?_obj_cons]
  | cons m members ih =>
    rw [setMember]
    split
    · rename_i hm
      rw [get?_obj_cons, get?_obj_cons, hm]
      split
      · rfl
      · rfl
    · rename_i hm
      rw [get?_obj_cons, get?_obj_cons, ih]
      by_cases hkey : m.1 = key
      · rw [if_pos hkey, if_pos hkey, if_neg (fun h => hm (hkey.trans h.symm))]
      · rw [if_neg hkey, if_neg hkey]

private theorem get?_eq_none_of_forall {members : List (String × Json)} {key : String}
    (h : ∀ m ∈ members, m.1 ≠ key) : (obj members).get? key = none := by
  have hfind : members.find? (fun m => m.1 == key) = none :=
    List.find?_eq_none.2 (fun m hm => by simpa using h m hm)
  simp [get?, hfind]

private theorem get?_foldl_setMember (updates : List (String × Json)) :
    ∀ members : List (String × Json), (updates.map Prod.fst).Nodup →
      ∀ key, (obj (updates.foldl (fun ms u => setMember ms u.1 u.2) members)).get? key =
        ((obj updates).get? key).or ((obj members).get? key) := by
  induction updates with
  | nil => intro members _ key; rfl
  | cons u updates ih =>
    intro members hnodup key
    obtain ⟨hnew, hrest⟩ := List.nodup_cons.1 hnodup
    rw [List.foldl_cons, ih _ hrest, get?_setMember, get?_obj_cons]
    by_cases hkey : u.1 = key
    · have habsent : (obj updates).get? key = none :=
        get?_eq_none_of_forall (fun m hm heq =>
          hnew (hkey ▸ heq ▸ List.mem_map_of_mem hm))
      simp [hkey, habsent]
    · simp [hkey]

/-- A member of a merged document is the update's, or else the document's. -/
theorem get?_merge (doc : Json) {updates : List (String × Json)}
    (hnodup : (updates.map Prod.fst).Nodup) (key : String) :
    (doc.merge (obj updates)).get? key =
      ((obj updates).get? key).or (doc.get? key) := by
  have hmembers : (obj (doc.asObject?.getD [])).get? key = doc.get? key := by
    cases doc with
    | obj members => rfl
    | null | bool | num | str | arr => rfl
  rw [merge, get?_foldl_setMember updates _ hnodup, hmembers]

/-! ## Single members -/

/-- Set one member of an object; anything else is left alone. -/
def set (doc : Json) (key : String) (v : Json) : Json :=
  match doc with
  | .obj members => .obj (setMember members key v)
  | doc => doc

theorem get?_set (members : List (String × Json)) (k : String) (v : Json) (key : String) :
    ((obj members).set k v).get? key = if k = key then some v else (obj members).get? key :=
  get?_setMember members k v key

end Json

/-- The string under a key of a document. -/
def strField (v : Json) (key : String) : Option String := (v.get? key).bind Json.asStr?

end EmbraOS.Verified.Serde
