import Mathlib.Data.Fin.Basic
import Mathlib.Data.List.Basic
import Mathlib.Logic.Function.Basic

/-!
# Codes that end by themselves

A code is a prefix code if a codeword can be read off the front of a string whatever follows
it. Formats that write one value behind the other rely on it.

- `IsPrefixCode`, with the rules by which larger codes are made of smaller ones:
  `IsPrefixCode.comp` along an injection, `IsPrefixCode.lengthPrefixed` for strings,
  `IsPrefixCode.item` for a value behind a tag that tells its kind, `IsPrefixCode.message`
  for a list of items with a mark behind it.
- `varint`: numbers in base 128, with a bit on every digit that another one follows.
- `zigzag`: integers as numbers.
-/

namespace PrefixCode

variable {α β γ κ : Type*}

/-- A codeword and what follows it are determined by the whole. -/
def IsPrefixCode (enc : α → List β) : Prop :=
  ∀ ⦃a b : α⦄ ⦃s t : List β⦄, enc a ++ s = enc b ++ t → a = b ∧ s = t

/-- A string behind its length. -/
def lengthPrefixed (len : Nat → List β) (s : List β) : List β := len s.length ++ s

/-- A value behind its tag, or the mark of the end. -/
def item (mark : Option κ → List β) (tag : α → κ) (val : α → List β) : Option α → List β
  | none => mark none
  | some a => mark (some (tag a)) ++ val a

/-- The items of a list, and the end. -/
def message (enc : Option α → List β) (l : List α) : List β :=
  l.flatMap (fun a => enc (some a)) ++ enc none

theorem message_cons (enc : Option α → List β) (a : α) (l : List α) :
    message enc (a :: l) = enc (some a) ++ message enc l := by
  rw [message, message, List.flatMap_cons, List.append_assoc]

namespace IsPrefixCode

/-- Unless there is nothing to tell, no codeword is empty. -/
theorem ne_nil {enc : α → List β} (h : IsPrefixCode enc) {a b : α} (hab : a ≠ b) :
    enc a ≠ [] := by
  intro hnil
  have hboth : enc a ++ enc b = enc b ++ [] := by rw [hnil, List.nil_append, List.append_nil]
  exact hab (h hboth).1

theorem comp {enc : α → List β} (h : IsPrefixCode enc) {f : γ → α}
    (hf : Function.Injective f) : IsPrefixCode fun c => enc (f c) := by
  intro a b s t hst
  obtain ⟨hab, hrest⟩ := h hst
  exact ⟨hf hab, hrest⟩

theorem lengthPrefixed {len : Nat → List β} (h : IsPrefixCode len) :
    IsPrefixCode (PrefixCode.lengthPrefixed len) := by
  intro a b s t hst
  rw [PrefixCode.lengthPrefixed, PrefixCode.lengthPrefixed, List.append_assoc,
    List.append_assoc] at hst
  obtain ⟨hlen, hrest⟩ := h hst
  exact List.append_inj hrest hlen

/-- A tag tells how the value behind it is to be read. -/
theorem item {mark : Option κ → List β} {tag : α → κ} {val : α → List β}
    (hmark : IsPrefixCode mark)
    (hval : ∀ ⦃a b : α⦄ ⦃s t : List β⦄, tag a = tag b → val a ++ s = val b ++ t → a = b ∧ s = t) :
    IsPrefixCode (PrefixCode.item mark tag val) := by
  intro a b s t hst
  cases a with
  | none =>
    cases b with
    | none => exact ⟨rfl, (hmark hst).2⟩
    | some b =>
      -- the end is no tag
      rw [PrefixCode.item, PrefixCode.item, List.append_assoc] at hst
      cases (hmark hst).1
  | some a =>
    cases b with
    | none =>
      rw [PrefixCode.item, PrefixCode.item, List.append_assoc] at hst
      cases (hmark hst).1
    | some b =>
      rw [PrefixCode.item, PrefixCode.item, List.append_assoc, List.append_assoc] at hst
      obtain ⟨htag, hrest⟩ := hmark hst
      obtain ⟨rfl, hend⟩ := hval (Option.some.inj htag) hrest
      exact ⟨rfl, hend⟩

/-- The items are read one after the other, up to the end. -/
theorem message {enc : Option α → List β} (h : IsPrefixCode enc) :
    IsPrefixCode (PrefixCode.message enc) := by
  intro l m s t hst
  induction l generalizing m with
  | nil =>
    cases m with
    | nil => exact ⟨rfl, (h hst).2⟩
    | cons b m =>
      rw [message_cons, List.append_assoc] at hst
      cases (h hst).1
  | cons a l ih =>
    cases m with
    | nil =>
      rw [message_cons, List.append_assoc] at hst
      cases (h hst).1
    | cons b m =>
      rw [message_cons, message_cons, List.append_assoc, List.append_assoc] at hst
      obtain ⟨hab, hrest⟩ := h hst
      obtain ⟨rfl, hend⟩ := ih hrest
      exact ⟨by rw [Option.some.inj hab], hend⟩

end IsPrefixCode

/-! ## Numbers -/

/-- The digits of `n` in base 128, the lowest first. `fuel` bounds their number. -/
def varintDigits : Nat → Nat → List (Fin 256)
  | 0, n => [Fin.ofNat 256 n]
  | fuel + 1, n =>
    if n < 128 then [Fin.ofNat 256 n]
    else Fin.ofNat 256 (128 + n % 128) :: varintDigits fuel (n / 128)

/-- A number in base 128. -/
def varint (n : Nat) : List (Fin 256) := varintDigits n n

/-- The first digit tells whether it is the last one. -/
theorem varintDigits_eq {fuel n : Nat} (hn : n ≤ fuel) : varintDigits fuel n =
    if n < 128 then [Fin.ofNat 256 n]
    else Fin.ofNat 256 (128 + n % 128) :: varintDigits (fuel - 1) (n / 128) := by
  cases fuel with
  | zero =>
    obtain rfl := Nat.le_zero.mp hn
    rfl
  | succ fuel => rfl

/-- An integer as a number, small ones of either sign first. -/
def zigzag (x : Int) : Nat := if 0 ≤ x then 2 * x.natAbs else 2 * x.natAbs - 1

end PrefixCode
