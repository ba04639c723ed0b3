import Mathlib
import EmbraOS.Verified.Serde
import EmbraOS.Verified.Text

/-!
# Masking of credential headers

Port of `mask_credential_headers` in `embra-tools-core/src/mask.rs`, which masks
the credentials of a tool call before the call is recorded.

The walk does not go into an object that a `headers` key holds, so a `headers`
object inside of another is not reached.  `mask_spec` says what holds of every
value and for which values the masking is complete.
-/

namespace EmbraOS.Ports.MaskHeaders

open Verified.Serde
open Verified.Text

/-! ## The code -/

def maskedHeaders : List String :=
  ["authorization", "proxy-authorization", "cookie", "x-api-key", "api-key", "x-auth-token",
    "private-token"]

def maskedValue : String := "[masked]"

def eqIgnoreAsciiCase (a b : String) : Bool := toAsciiLowercase a = toAsciiLowercase b

def isHeadersKey (key : String) : Bool := eqIgnoreAsciiCase key "headers"

def isMaskedName (name : String) : Bool := maskedHeaders.any (fun m => eqIgnoreAsciiCase m name)

/-- The entry is rewritten. -/
def moves (header : String × Json) : Bool := isMaskedName header.1 && !header.2.isNull

def maskHeader (header : String × Json) : String × Json :=
  if moves header then (header.1, .str maskedValue) else header

/-- The object that a `headers` key holds. -/
def heldHeaders (key : String) (child : Json) : Option (List (String × Json)) :=
  if isHeadersKey key then child.asObject? else none

mutual

/-- The value afterwards, and whether anything moved. -/
def maskCredentialHeaders : Json → Json × Bool
  | .obj members => (.obj (maskMembers members).1, (maskMembers members).2)
  | .arr items => (.arr (maskItems items).1, (maskItems items).2)
  | v => (v, false)

def maskMembers : List (String × Json) → List (String × Json) × Bool
  | [] => ([], false)
  | (key, child) :: members =>
    let r := match heldHeaders key child with
      | some headers => (Json.obj (headers.map maskHeader), headers.any moves)
      | none => maskCredentialHeaders child
    ((key, r.1) :: (maskMembers members).1, r.2 || (maskMembers members).2)

def maskItems : List Json → List Json × Bool
  | [] => ([], false)
  | item :: items =>
    let r := maskCredentialHeaders item
    (r.1 :: (maskItems items).1, r.2 || (maskItems items).2)

end

/-! ## What is asked of a value -/

/-- One value is somewhere in another. -/
inductive Within : Json → Json → Prop where
  | self (v : Json) : Within v v
  | item {v x : Json} {items : List Json} (hx : x ∈ items) (h : Within v x) :
      Within v (.arr items)
  | member {v c : Json} {k : String} {members : List (String × Json)}
      (hc : (k, c) ∈ members) (h : Within v c) : Within v (.obj members)

/-- Every credential header of an object is masked or null. -/
def HeadersMasked (headers : List (String × Json)) : Prop :=
  ∀ n x, (n, x) ∈ headers → isMaskedName n = true → x = .null ∨ x = .str maskedValue

/-- Every object that a `headers` key holds, anywhere in the value, has its
credential headers masked. -/
def Masked (v : Json) : Prop :=
  ∀ members, Within (.obj members) v → ∀ k headers, (k, .obj headers) ∈ members →
    isHeadersKey k = true → HeadersMasked headers

mutual

/-- The value with null for every credential header of an object that a
`headers` key holds, anywhere in it; `held` says that such a key holds the value
itself. -/
def blank (held : Bool) : Json → Json
  | .obj members => .obj (blankMembers held members)
  | .arr items => .arr (blankItems items)
  | v => v

def blankMembers (held : Bool) : List (String × Json) → List (String × Json)
  | [] => []
  | (k, c) :: members =>
    (k, if held && isMaskedName k then .null else blank (isHeadersKey k) c) ::
      blankMembers held members

def blankItems : List Json → List Json
  | [] => []
  | item :: items => blank false item :: blankItems items

end

/-- Two values agree outside of the credential headers. -/
def SameOutside (v w : Json) : Prop := blank false v = blank false w

/-! ## The check as a program -/

def isMaskedValue : Json → Bool
  | .null => true
  | .str s => s = maskedValue
  | _ => false

def headerMasked (header : String × Json) : Bool :=
  !isMaskedName header.1 || isMaskedValue header.2

mutual

def clean (held : Bool) : Json → Bool
  | .obj members => cleanMembers held members
  | .arr items => cleanItems items
  | _ => true

def cleanMembers (held : Bool) : List (String × Json) → Bool
  | [] => true
  | (k, c) :: members =>
    (!held || headerMasked (k, c)) && clean (isHeadersKey k) c && cleanMembers held members

def cleanItems : List Json → Bool
  | [] => true
  | item :: items => clean false item && cleanItems items

end

mutual

/-- In the `headers` objects that are not inside of another one, nothing below a
header that is not a credential has an unmasked credential. -/
def shallow : Json → Bool
  | .obj members => shallowMembers members
  | .arr items => shallowItems items
  | _ => true

def shallowMembers : List (String × Json) → Bool
  | [] => true
  | (key, child) :: members =>
    (match heldHeaders key child with
      | some headers => headers.all (fun h => isMaskedName h.1 || clean (isHeadersKey h.1) h.2)
      | none => shallow child) && shallowMembers members

def shallowItems : List Json → Bool
  | [] => true
  | item :: items => shallow item && shallowItems items

end

/-! ## The check is the property -/

theorem cleanMembers_cons (held : Bool) (m : String × Json) (members : List (String × Json)) :
    cleanMembers held (m :: members) =
      ((!held || headerMasked m) && clean (isHeadersKey m.1) m.2 &&
        cleanMembers held members) := by
  obtain ⟨k, c⟩ := m
  rw [cleanMembers]

theorem blankMembers_cons (held : Bool) (m : String × Json) (members : List (String × Json)) :
    blankMembers held (m :: members) =
      (m.1, if held && isMaskedName m.1 then .null else blank (isHeadersKey m.1) m.2) ::
        blankMembers held members := by
  obtain ⟨k, c⟩ := m
  rw [blankMembers]

variable {v child : Json} {headers members : List (String × Json)} {key : String}

theorem isMaskedValue_iff :
    isMaskedValue v = true ↔ v = .null ∨ v = .str maskedValue := by
  cases v <;> simp [isMaskedValue]

theorem headersMasked_iff :
    HeadersMasked headers ↔ headers.all headerMasked = true := by
  simp only [HeadersMasked, List.all_eq_true, headerMasked, Prod.forall, Bool.or_eq_true,
    Bool.not_eq_true', isMaskedValue_iff]
  constructor
  · intro h n x hx
    cases hn : isMaskedName n with
    | false => exact Or.inl rfl
    | true => exact Or.inr (h n x hx hn)
  · intro h n x hx hn
    rcases h n x hx with hfalse | hok
    · rw [hn] at hfalse
      cases hfalse
    · exact hok

/-- What is asked of a member: of the object it holds, when its key is `headers`,
and of the value below it. -/
def MemberMasked (k : String) (c : Json) : Prop :=
  (isHeadersKey k = true → ∀ headers, c = .obj headers → HeadersMasked headers) ∧ Masked c

theorem masked_obj :
    Masked (.obj members) ↔ ∀ k c, (k, c) ∈ members → MemberMasked k c := by
  constructor
  · intro h k c hc
    constructor
    · intro hk headers hobj
      exact h members (.self _) k headers (hobj ▸ hc) hk
    · intro ms hms
      exact h ms (.member hc hms)
  · intro h ms hms k headers hmem hk
    cases hms with
    | self => exact (h k _ hmem).1 hk headers rfl
    | member hc hin => exact (h _ _ hc).2 ms hin k headers hmem hk

theorem masked_arr {items : List Json} : Masked (.arr items) ↔ ∀ x ∈ items, Masked x := by
  constructor
  · intro h x hx ms hms
    exact h ms (.item hx hms)
  · intro h ms hms
    cases hms with
    | item hx hin => exact h _ hx ms hin

theorem masked_of_leaf (hobj : v.asObject? = none) (harr : v.asArray? = none) :
    Masked v := by
  intro ms hms
  cases hms with
  | self => cases hobj
  | item => cases harr
  | member => cases hobj

mutual

theorem clean_iff (held : Bool) (v : Json) :
    clean held v = true ↔
      (held = true → ∀ headers, v = .obj headers → HeadersMasked headers) ∧ Masked v := by
  cases v with
  | obj members =>
    rw [clean, cleanMembers_iff, masked_obj]
    simp
  | arr items =>
    rw [clean, cleanItems_iff, masked_arr]
    simp
  | null | bool b | num n | str s =>
    refine iff_of_true rfl ⟨?_, masked_of_leaf rfl rfl⟩
    exact nofun

theorem cleanMembers_iff (held : Bool) (members : List (String × Json)) :
    cleanMembers held members = true ↔
      (held = true → HeadersMasked members) ∧ ∀ k c, (k, c) ∈ members → MemberMasked k c := by
  cases members with
  | nil => simp [cleanMembers, HeadersMasked]
  | cons m members =>
    obtain ⟨k, c⟩ := m
    rw [cleanMembers, Bool.and_eq_true, Bool.and_eq_true, clean_iff, cleanMembers_iff,
      headersMasked_iff, headersMasked_iff, List.all_cons]
    simp only [List.mem_cons, Prod.mk.injEq, Bool.and_eq_true, MemberMasked]
    constructor
    · rintro ⟨⟨hhead, hc⟩, hrest, hall⟩
      refine ⟨fun hheld => ⟨by simpa [hheld] using hhead, hrest hheld⟩, ?_⟩
      rintro k' c' (⟨rfl, rfl⟩ | hmem)
      · exact hc
      · exact hall k' c' hmem
    · rintro ⟨hheld, hall⟩
      refine ⟨⟨?_, hall k c (Or.inl ⟨rfl, rfl⟩)⟩, fun h => (hheld h).2,
        fun k' c' hmem => hall k' c' (Or.inr hmem)⟩
      cases held with
      | false => rfl
      | true => simpa using (hheld rfl).1

theorem cleanItems_iff (items : List Json) :
    cleanItems items = true ↔ ∀ x ∈ items, Masked x := by
  cases items with
  | nil => simp [cleanItems]
  | cons item items =>
    rw [cleanItems, Bool.and_eq_true, clean_iff, cleanItems_iff, List.forall_mem_cons]
    simp

end

theorem masked_iff_clean : Masked v ↔ clean false v = true := by
  rw [clean_iff]
  simp

/-! ## One `headers` object -/

theorem heldHeaders_eq_some (h : heldHeaders key child = some headers) :
    isHeadersKey key = true ∧ child = .obj headers := by
  unfold heldHeaders at h
  split at h
  · rename_i hkey
    refine ⟨hkey, ?_⟩
    cases child with
    | obj members => rw [Option.some.inj h]
    | null | bool | num | str | arr => cases h
  · cases h

theorem heldHeaders_obj (h : isHeadersKey key = true) :
    heldHeaders key (.obj headers) = some headers := by
  rw [heldHeaders, if_pos h]
  rfl

@[simp] theorem fst_maskHeader (header : String × Json) :
    (maskHeader header).1 = header.1 := by
  unfold maskHeader
  split
  · rfl
  · rfl

theorem maskHeader_of_not_masked {header : String × Json}
    (h : isMaskedName header.1 = false) : maskHeader header = header := by
  simp [maskHeader, moves, h]

theorem isMaskedValue_maskHeader {header : String × Json}
    (h : isMaskedName header.1 = true) : isMaskedValue (maskHeader header).2 = true := by
  unfold maskHeader
  cases hmoves : moves header with
  | true => simp [isMaskedValue]
  | false =>
    have hnull : header.2.isNull = true := by simpa [moves, h] using hmoves
    cases hv : header.2 with
    | null => simp [hv, isMaskedValue]
    | bool | num | str | arr | obj => simp [hv, Json.isNull] at hnull

theorem clean_of_isMaskedValue (h : isMaskedValue v = true) (held : Bool) :
    clean held v = true := by
  rcases isMaskedValue_iff.1 h with rfl | rfl
  · rfl
  · rfl

theorem maskHeader_maskHeader (header : String × Json) :
    maskHeader (maskHeader header) = maskHeader header := by
  cases h : isMaskedName header.1 with
  | false => rw [maskHeader_of_not_masked h, maskHeader_of_not_masked h]
  | true =>
    have hvalue := isMaskedValue_maskHeader h
    rcases isMaskedValue_iff.1 hvalue with hnull | hstr
    · simp [maskHeader.eq_1 (maskHeader header), moves, hnull, Json.isNull]
    · rw [maskHeader.eq_1 (maskHeader header)]
      split
      · rw [← hstr]
      · rfl

theorem map_maskHeader_map (headers : List (String × Json)) :
    (headers.map maskHeader).map maskHeader = headers.map maskHeader := by
  rw [List.map_map]
  apply List.map_congr_left
  intro header _
  rw [Function.comp_apply, maskHeader_maskHeader]

/-- A masked `headers` object is clean exactly when what is below its other headers
is. -/
theorem cleanMembers_map_maskHeader (headers : List (String × Json)) :
    cleanMembers true (headers.map maskHeader) =
      headers.all (fun h => isMaskedName h.1 || clean (isHeadersKey h.1) h.2) := by
  induction headers with
  | nil => rfl
  | cons header headers ih =>
    have hhead : ((!true || headerMasked (maskHeader header)) &&
        clean (isHeadersKey header.1) (maskHeader header).2) =
          (isMaskedName header.1 || clean (isHeadersKey header.1) header.2) := by
      cases h : isMaskedName header.1 with
      | false => simp [maskHeader_of_not_masked h, headerMasked, h]
      | true =>
        have hvalue := isMaskedValue_maskHeader h
        simp [headerMasked, h, hvalue, clean_of_isMaskedValue hvalue]
    rw [List.map_cons, List.all_cons, cleanMembers_cons, ih, fst_maskHeader, hhead]

theorem blankMembers_map_maskHeader (headers : List (String × Json)) :
    blankMembers true (headers.map maskHeader) = blankMembers true headers := by
  induction headers with
  | nil => rfl
  | cons header headers ih =>
    rw [List.map_cons, blankMembers_cons, blankMembers_cons, ih, fst_maskHeader]
    cases h : isMaskedName header.1 with
    | false => rw [maskHeader_of_not_masked h]
    | true => rw [Bool.true_and, if_pos rfl, if_pos rfl]

/-! ## The walk -/

/-- Masking leaves a value that is not an object one. -/
theorem asObject?_mask (h : v.asObject? = none) :
    (maskCredentialHeaders v).1.asObject? = none := by
  cases v with
  | obj members => cases h
  | null | bool | num | str | arr => rfl

theorem heldHeaders_mask (h : heldHeaders key child = none) :
    heldHeaders key (maskCredentialHeaders child).1 = none := by
  unfold heldHeaders at h ⊢
  split at h
  · rename_i hkey
    rw [if_pos hkey]
    exact asObject?_mask h
  · rename_i hkey
    rw [if_neg hkey]

/-- Below a key that holds no `headers` object a flag that only objects read does not matter. -/
theorem flag_of_heldHeaders {β : Type} {f : Bool → Json → β}
    (hf : ∀ v, v.asObject? = none → f true v = f false v) (h : heldHeaders key child = none) :
    f (isHeadersKey key) child = f false child := by
  cases hkey : isHeadersKey key with
  | false => rfl
  | true =>
    rw [heldHeaders, if_pos hkey] at h
    exact hf child h

theorem clean_flag (h : v.asObject? = none) : clean true v = clean false v := by
  cases v with
  | obj => cases h
  | null | bool | num | str | arr => rfl

theorem blank_flag (h : v.asObject? = none) : blank true v = blank false v := by
  cases v with
  | obj => cases h
  | null | bool | num | str | arr => rfl

section Walk

variable {P : Json → Json → Prop} {M : List (String × Json) → List (String × Json) → Prop}
  {I : List Json → List Json → Prop}

/-- What relates a value, its members or its items to the masked ones, if the steps of the walk
keep it. -/
structure Walk (P : Json → Json → Prop)
    (M : List (String × Json) → List (String × Json) → Prop)
    (I : List Json → List Json → Prop) : Prop where
  leaf : ∀ v, v.asObject? = none → v.asArray? = none → P v v
  obj : ∀ {ms ns}, M ms ns → P (.obj ms) (.obj ns)
  arr : ∀ {xs ys}, I xs ys → P (.arr xs) (.arr ys)
  noMember : M [] []
  held : ∀ {key headers ms ns}, isHeadersKey key = true → M ms ns →
    M ((key, .obj headers) :: ms) ((key, .obj (headers.map maskHeader)) :: ns)
  member : ∀ {key v w ms ns}, heldHeaders key v = none → heldHeaders key w = none → P v w →
    M ms ns → M ((key, v) :: ms) ((key, w) :: ns)
  noItem : I [] []
  item : ∀ {x y xs ys}, P x y → I xs ys → I (x :: xs) (y :: ys)

mutual

theorem Walk.mask (h : Walk P M I) (v : Json) : P v (maskCredentialHeaders v).1 := by
  cases v with
  | obj members => exact h.obj (h.onMembers members)
  | arr items => exact h.arr (h.onItems items)
  | null | bool | num | str => exact h.leaf _ rfl rfl

theorem Walk.onMembers (h : Walk P M I) (members : List (String × Json)) :
    M members (maskMembers members).1 := by
  cases members with
  | nil => exact h.noMember
  | cons m members =>
    obtain ⟨key, child⟩ := m
    rw [maskMembers]
    cases hheld : heldHeaders key child with
    | some headers =>
      obtain ⟨hkey, rfl⟩ := heldHeaders_eq_some hheld
      exact h.held hkey (h.onMembers members)
    | none =>
      exact h.member hheld (heldHeaders_mask hheld) (h.mask child) (h.onMembers members)

theorem Walk.onItems (h : Walk P M I) (items : List Json) : I items (maskItems items).1 := by
  cases items with
  | nil => exact h.noItem
  | cons item items => exact h.item (h.mask item) (h.onItems items)

end

end Walk

theorem walk_clean : Walk (fun v w => clean false w = shallow v)
    (fun ms ns => cleanMembers false ns = shallowMembers ms)
    (fun xs ys => cleanItems ys = shallowItems xs) where
  leaf v hobj harr := by
    cases v with
    | obj => cases hobj
    | arr => cases harr
    | null | bool | num | str => rfl
  obj h := h
  arr h := h
  noMember := rfl
  held hkey h := by
    rw [cleanMembers, shallowMembers, h, heldHeaders_obj hkey, hkey, clean,
      cleanMembers_map_maskHeader]
    rfl
  member hv hw h hrest := by
    rw [cleanMembers, shallowMembers, hv, hrest,
      flag_of_heldHeaders (fun _ => clean_flag) hw, h]
    rfl
  noItem := rfl
  item h hrest := by rw [cleanItems, shallowItems, h, hrest]

theorem walk_blank : Walk (fun v w => blank false w = blank false v)
    (fun ms ns => blankMembers false ns = blankMembers false ms)
    (fun xs ys => blankItems ys = blankItems xs) where
  leaf _ _ _ := rfl
  obj h := congrArg Json.obj h
  arr h := congrArg Json.arr h
  noMember := rfl
  held hkey h := by
    rw [blankMembers, blankMembers, h, hkey, blank, blank, blankMembers_map_maskHeader]
  member hv hw h hrest := by
    rw [blankMembers, blankMembers, hrest, flag_of_heldHeaders (fun _ => blank_flag) hw,
      flag_of_heldHeaders (fun _ => blank_flag) hv, h]
  noItem := rfl
  item h hrest := by rw [blankItems, blankItems, h, hrest]

theorem walk_mask : Walk (fun _ w => (maskCredentialHeaders w).1 = w)
    (fun _ ns => (maskMembers ns).1 = ns) (fun _ ys => (maskItems ys).1 = ys) where
  leaf v hobj harr := by
    cases v with
    | obj => cases hobj
    | arr => cases harr
    | null | bool | num | str => rfl
  obj h := congrArg Json.obj h
  arr h := congrArg Json.arr h
  noMember := rfl
  held hkey h := by simp only [maskMembers, heldHeaders_obj hkey, map_maskHeader_map, h]
  member _ hw h hrest := by simp only [maskMembers, hw, h, hrest]
  noItem := rfl
  item h hrest := by simp only [maskItems, h, hrest]

/-- **What masking does to every value**: nothing outside of the credential headers
of a `headers` object changes, and masking again changes nothing; and every
`headers` object is masked, together with both, exactly when no credential is left
below another header of one (`shallow`). -/
theorem mask_spec (v : Json) :
    SameOutside (maskCredentialHeaders v).1 v ∧
    (maskCredentialHeaders (maskCredentialHeaders v).1).1 = (maskCredentialHeaders v).1 ∧
    ((Masked (maskCredentialHeaders v).1 ∧ SameOutside (maskCredentialHeaders v).1 v ∧
      (maskCredentialHeaders (maskCredentialHeaders v).1).1 = (maskCredentialHeaders v).1) ↔
      shallow v = true) := by
  have hsame : SameOutside (maskCredentialHeaders v).1 v := walk_blank.mask v
  have htwice := walk_mask.mask v
  refine ⟨hsame, htwice, ?_⟩
  rw [masked_iff_clean, walk_clean.mask, and_iff_left ⟨hsame, htwice⟩]

/-- A credential in a `headers` object inside of another one is recorded. -/
theorem mask_leaves_nested :
    ¬ Masked (maskCredentialHeaders (.obj [("headers", .obj [("x-forwarded",
      .obj [("headers", .obj [("authorization", .str "Bearer abc")])])])])).1 := by
  rw [masked_iff_clean]
  decide +kernel

example :
    shallow (.obj [("input", .obj [("headers", .obj [("Authorization", .str "Bearer abc"),
      ("accept", .str "text/html")])])]) = true := by
  decide +kernel

end EmbraOS.Ports.MaskHeaders
