import BatchOrder.Octets

/-!
# Accounts, nonces and actions

An account is named by a 20-byte address and numbers what it does by a 64-bit nonce. An action is
one numbered step of one account. Nonces do not wrap: the last one is its own successor and zero its
own predecessor.

Main results:

- Instances of `Std.TransOrd` and `Std.LawfulEqOrd`: actions are ordered linearly, by account and
  then by nonce.
- Theorems `Nonce.toNat_succ` and `Nonce.toNat_pred`: what saturation does, in numbers.
- Theorem `Action.text_inj`: the written form of an action determines it.
-/

namespace BatchOrder

/-! ## Nonces -/

/-- The number of an action among those of its account. -/
abbrev Nonce := UInt64

namespace Nonce

/-- The greatest nonce. -/
def last : Nonce := 0xFFFFFFFFFFFFFFFF

/-- The next nonce; the last one stays where it is. -/
def succ (n : Nonce) : Nonce := if n = last then last else n + 1

/-- The nonce before; zero stays where it is. -/
def pred (n : Nonce) : Nonce := if n = 0 then 0 else n - 1

theorem toNat_last : last.toNat = 0xFFFFFFFFFFFFFFFF := rfl

/-- No nonce is greater than the last one. -/
theorem toNat_le_last (n : Nonce) : n.toNat ≤ last.toNat := by
  have := n.toNat_lt
  rw [toNat_last]; omega

/-- The successor of a nonce is one greater, unless the nonce is the last. -/
theorem toNat_succ (n : Nonce) : (succ n).toNat = min (n.toNat + 1) last.toNat := by
  have hn := n.toNat_lt
  unfold succ
  split
  · next h => rw [h]; rfl
  · next h =>
    have : n.toNat ≠ last.toNat := fun e => h (UInt64.toNat_inj.1 e)
    rw [toNat_last] at this ⊢
    rw [UInt64.toNat_add, UInt64.toNat_one]
    omega

/-- The predecessor of a nonce is one less, unless the nonce is zero. -/
theorem toNat_pred (n : Nonce) : (pred n).toNat = n.toNat - 1 := by
  unfold pred
  split
  · next h => rw [h]; rfl
  · next h =>
    have : n.toNat ≠ 0 := fun e => h (UInt64.toNat_inj.1 e)
    rw [UInt64.toNat_sub_of_le _ _ (UInt64.le_iff_toNat_le.2 (by rw [UInt64.toNat_one]; omega)),
      UInt64.toNat_one]

/-- Different nonces are written differently. -/
theorem toString_inj {m n : Nonce} : toString m = toString n ↔ m = n := by
  refine ⟨fun h => ?_, congrArg toString⟩
  have hrepr : Nat.repr m.toNat = Nat.repr n.toNat := h
  have hdigits : Nat.toDigits 10 m.toNat = Nat.toDigits 10 n.toNat := by
    simpa only [Nat.toList_repr] using congrArg String.toList hrepr
  apply UInt64.toNat_inj.1
  rw [← Nat.ofDigitChars_ten_toDigits (n := m.toNat), hdigits, Nat.ofDigitChars_ten_toDigits]

end Nonce

/-! ## Addresses -/

/-- The name of an account. -/
abbrev Address := Octets 20

instance : Std.TransOrd Address := inferInstanceAs (Std.TransOrd (Octets 20))

namespace Address

/-- The written form of an address: a marker and forty lower-case hexadecimal digits. -/
def text (a : Address) : String := "0x" ++ a.toHex

/-- Read an address, with or without the marker. -/
def ofText? (text : String) : Option Address :=
  match text.toList with
  | '0' :: 'x' :: digits => Octets.ofHex? 20 digits
  | digits => Octets.ofHex? 20 digits

/-- A written address reads back. -/
theorem ofText?_text (a : Address) : ofText? a.text = some a := by
  have h : a.text.toList = '0' :: 'x' :: a.toHex.toList := by simp [text]
  rw [ofText?, h]
  exact Octets.ofHex?_toHex a

/-- Different addresses are written differently. -/
theorem text_inj {a b : Address} : a.text = b.text ↔ a = b := by
  refine ⟨fun h => ?_, congrArg text⟩
  have hread := congrArg ofText? h
  rw [ofText?_text, ofText?_text] at hread
  exact Option.some.inj hread

/-- A written address is the marker with two digits for every byte. -/
theorem length_text (a : Address) : a.text.toList.length = 42 := by
  simp [text, Octets.toHex]

end Address

/-! ## Actions -/

/-- One numbered step of one account. -/
structure Action where
  sender : Address
  nonce : Nonce
deriving DecidableEq, Hashable, Inhabited

namespace Action

/-- Actions are ordered by account and then by nonce. -/
instance : Ord Action := ⟨compareLex (compareOn sender) (compareOn nonce)⟩

instance : Std.TransOrd Action :=
  inferInstanceAs (Std.TransCmp (compareLex (compareOn sender) (compareOn nonce)))

instance : Std.LawfulEqOrd Action where
  eq_of_compare := by
    rintro ⟨s, n⟩ ⟨s', n'⟩ h
    obtain ⟨hs, hn⟩ := compareLex_eq_eq.1 h
    rw [Std.LawfulEqOrd.eq_of_compare (a := s) (b := s') hs,
      Std.LawfulEqOrd.eq_of_compare (a := n) (b := n') hn]

/-- The action of the same account one nonce earlier. -/
def pred (a : Action) : Action := { a with nonce := Nonce.pred a.nonce }

/-- The action of the same account one nonce later. -/
def succ (a : Action) : Action := { a with nonce := Nonce.succ a.nonce }

/-- The written form of an action: account, slash, nonce. -/
def text (a : Action) : String := a.sender.text ++ "/" ++ toString a.nonce

/-- Different actions are written differently: written addresses are equally long, so the slash
between address and nonce stands at the same place in both. -/
theorem text_inj {a b : Action} : a.text = b.text ↔ a = b := by
  refine ⟨fun h => ?_, congrArg text⟩
  have hlist (c : Action) :
      c.text.toList = c.sender.text.toList ++ '/' :: (toString c.nonce).toList := by
    simp [text]
  have hparts := congrArg String.toList h
  rw [hlist, hlist] at hparts
  rcases List.append_inj hparts (by simp only [Address.length_text]) with ⟨hsender, hnonce⟩
  have hs : a.sender = b.sender := Address.text_inj.1 (String.toList_inj.1 hsender)
  have hn : a.nonce = b.nonce :=
    Nonce.toString_inj.1 (String.toList_inj.1 (List.cons.inj hnonce).2)
  cases a; cases b
  exact congr (congrArg mk hs) hn

end Action

end BatchOrder
