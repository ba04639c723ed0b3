import EmbraOS.Verified.Checked

/-!
# The backlog of the tool-call feed

`Backlog::push` of `embra-web/src/tool_feed.rs`.  A call costs the bytes of its input and result;
its other fields are not looked at.  A subtraction that would wrap gives `none`; the sums are of
texts held in memory at once, which cannot pass the word size.

`backlog_longest_suffix`: after any calls the backlog holds the longest run of the last ones that
meets both bounds.
-/

namespace EmbraOS.Ports.ToolFeed

open Verified.Checked

structure ToolCall where
  input : String
  result : String

def ToolCall.bytes (call : ToolCall) : Nat := call.input.utf8ByteSize + call.result.utf8ByteSize

structure Backlog where
  calls : List ToolCall
  bytes : Nat
  maxEntries : Nat
  maxBytes : Nat

/-- The loop of `push`: the oldest call goes while there is another and a bound is passed. -/
def evict (maxEntries maxBytes : Nat) : List ToolCall → Nat → Option (List ToolCall × Nat)
  | old :: next :: rest, bytes =>
    if (old :: next :: rest).length > maxEntries ∨ bytes > maxBytes then
      (sub? bytes old.bytes).bind (evict maxEntries maxBytes (next :: rest))
    else some (old :: next :: rest, bytes)
  | calls, bytes => some (calls, bytes)

def push (b : Backlog) (call : ToolCall) : Option Backlog :=
  (evict b.maxEntries b.maxBytes (b.calls ++ [call]) (b.bytes + call.bytes)).map
    (fun r => { b with calls := r.1, bytes := r.2 })

def withBounds (maxEntries maxBytes : Nat) : Backlog := ⟨[], 0, maxEntries, maxBytes⟩

def pushAll (b : Backlog) (calls : List ToolCall) : Option Backlog := calls.foldlM push b

/-! ## What is kept -/

section Kept

variable (maxEntries maxBytes : Nat)

def total (calls : List ToolCall) : Nat := (calls.map ToolCall.bytes).sum

/-- The calls meet both bounds. -/
def Fits (calls : List ToolCall) : Prop := calls.length ≤ maxEntries ∧ total calls ≤ maxBytes

/-- The last calls that meet both bounds, as many as do; the newest stays whatever it costs. -/
structure Kept (pushed kept : List ToolCall) : Prop where
  suffix : kept <:+ pushed
  longest : ∀ s, s <:+ pushed → Fits maxEntries maxBytes s → s <:+ kept
  fits : Fits maxEntries maxBytes kept ∨ ∃ newest, kept = [newest]

variable {maxEntries maxBytes} {pushed kept calls : List ToolCall} {call : ToolCall}

theorem kept_nil : Kept maxEntries maxBytes [] [] :=
  ⟨List.suffix_refl _, fun _ hs _ => hs, Or.inl ⟨Nat.zero_le _, Nat.zero_le _⟩⟩

theorem Fits.of_append_left {rest : List ToolCall}
    (h : Fits maxEntries maxBytes (calls ++ rest)) : Fits maxEntries maxBytes calls := by
  simp only [Fits, total, List.length_append, List.map_append, List.sum_append] at h ⊢
  omega

/-- The loop drops calls only as long as what it has does not fit. -/
theorem evict_kept (calls : List ToolCall) :
    ∃ kept, evict maxEntries maxBytes calls (total calls) = some (kept, total kept) ∧
      Kept maxEntries maxBytes calls kept := by
  induction calls with
  | nil => exact ⟨[], rfl, kept_nil⟩
  | cons old rest ih =>
    cases rest with
    | nil => exact ⟨[old], rfl, List.suffix_refl _, fun _ hs _ => hs, Or.inr ⟨old, rfl⟩⟩
    | cons next rest =>
      rw [evict]
      split
      · rename_i hover
        have hsub : sub? (total (old :: next :: rest)) old.bytes =
            some (total (next :: rest)) := by
          rw [sub?_eq (by simp [total])]
          simp [total]
        obtain ⟨kept, hevict, hkept⟩ := ih
        rw [hsub]
        refine ⟨kept, hevict, hkept.suffix.trans (List.suffix_cons _ _), ?_, hkept.fits⟩
        intro s hs hfits
        rcases List.suffix_cons_iff.1 hs with rfl | hs
        · -- a bound is passed, so that all of the calls are no suffix that fits
          obtain ⟨hlen, hbytes⟩ := hfits
          omega
        · exact hkept.longest s hs hfits
      · rename_i hbelow
        rw [not_or, Nat.not_lt, Nat.not_lt] at hbelow
        exact ⟨_, rfl, List.suffix_refl _, fun _ hs _ => hs, Or.inl hbelow⟩

/-- One more call, of which the last calls that fit are one longer at most. -/
theorem Kept.push (h : Kept maxEntries maxBytes pushed kept) (call : ToolCall)
    {kept' : List ToolCall} (h' : Kept maxEntries maxBytes (kept ++ [call]) kept') :
    Kept maxEntries maxBytes (pushed ++ [call]) kept' := by
  have hgrow : ∀ {a b : List ToolCall}, a <:+ b → a ++ [call] <:+ b ++ [call] := by
    rintro a b ⟨front, rfl⟩
    exact ⟨front, by simp⟩
  refine ⟨h'.suffix.trans (hgrow h.suffix), fun s hs hfits => ?_, h'.fits⟩
  rcases List.eq_nil_or_concat' s with rfl | ⟨front, last, rfl⟩
  · exact List.nil_suffix
  · obtain ⟨more, hmore⟩ := hs
    rw [← List.append_assoc] at hmore
    obtain ⟨hfront, hlast⟩ := List.append_inj' hmore rfl
    obtain rfl : last = call := by simpa using hlast
    have hin := h.longest front ⟨more, hfront⟩ hfits.of_append_left
    exact h'.longest _ (hgrow hin) hfits

end Kept

theorem push_kept {maxEntries maxBytes : Nat} {pushed kept : List ToolCall}
    (h : Kept maxEntries maxBytes pushed kept) (call : ToolCall) :
    ∃ kept', push ⟨kept, total kept, maxEntries, maxBytes⟩ call =
        some ⟨kept', total kept', maxEntries, maxBytes⟩ ∧
      Kept maxEntries maxBytes (pushed ++ [call]) kept' := by
  have htotal : total kept + call.bytes = total (kept ++ [call]) := by simp [total]
  obtain ⟨kept', hevict, hkept⟩ := @evict_kept maxEntries maxBytes (kept ++ [call])
  refine ⟨kept', ?_, h.push call hkept⟩
  rw [ToolFeed.push, htotal, hevict]
  rfl

theorem pushAll_kept {maxEntries maxBytes : Nat} (calls : List ToolCall) :
    ∀ {pushed kept : List ToolCall}, Kept maxEntries maxBytes pushed kept →
      ∃ kept', pushAll ⟨kept, total kept, maxEntries, maxBytes⟩ calls =
          some ⟨kept', total kept', maxEntries, maxBytes⟩ ∧
        Kept maxEntries maxBytes (pushed ++ calls) kept' := by
  induction calls with
  | nil =>
    intro pushed kept h
    exact ⟨kept, rfl, by rwa [List.append_nil]⟩
  | cons call calls ih =>
    intro pushed kept h
    obtain ⟨next, hpush, hnext⟩ := push_kept h call
    obtain ⟨last, hall, hlast⟩ := ih hnext
    refine ⟨last, ?_, by rwa [List.append_assoc] at hlast⟩
    rw [pushAll, List.foldlM_cons, hpush]
    exact hall

/-- **The backlog over any calls.**  No subtraction wraps, the counter is the sum of the kept calls'
bytes, and these are the longest suffix of the calls that meets both bounds, or the newest call
alone when it does not meet them itself. -/
theorem backlog_longest_suffix (maxEntries maxBytes : Nat) (calls : List ToolCall) :
    ∃ b, pushAll (withBounds maxEntries maxBytes) calls = some b ∧ b.bytes = total b.calls ∧
      b.calls <:+ calls ∧
      ((Fits maxEntries maxBytes b.calls ∧
          ∀ s, s <:+ calls → Fits maxEntries maxBytes s → s.length ≤ b.calls.length) ∨
        ∃ newest, calls.getLast? = some newest ∧ b.calls = [newest] ∧
          ¬Fits maxEntries maxBytes [newest]) := by
  obtain ⟨kept, hall, hkept⟩ := @pushAll_kept maxEntries maxBytes calls [] [] kept_nil
  rw [List.nil_append] at hkept
  refine ⟨_, hall, rfl, hkept.suffix, ?_⟩
  by_cases hfits : Fits maxEntries maxBytes kept
  · exact Or.inl ⟨hfits, fun s hs hs' => (hkept.longest s hs hs').length_le⟩
  · obtain ⟨newest, rfl⟩ := hkept.fits.resolve_left hfits
    obtain ⟨front, hfront⟩ := hkept.suffix
    exact Or.inr ⟨newest, by rw [← hfront, List.getLast?_concat], rfl, hfits⟩

end EmbraOS.Ports.ToolFeed
