/-!
# Standings

How a transaction stands among those that wait. A runnable one stands above all that are not;
then fewer authorizations that another transaction could run itself, fewer that are out of reach for
now, and more authorizations in all stand higher.

Main results:

- Instances of `Std.TransOrd` and `Std.LawfulEqOrd`: standings are ordered linearly.
-/

namespace BatchOrder

/-- What decides the turn of a waiting transaction. -/
structure Standing where
  /-- The main action is the next one of its account. -/
  runnable : Bool
  /-- Authorizations that are next in turn and also wait as main actions. -/
  colliding : Nat
  /-- Authorizations whose turn has not come. -/
  blocked : Nat
  /-- All authorizations. -/
  authorizations : Nat
deriving DecidableEq, Hashable, Inhabited

namespace Standing

/-- Compare by the runnable flag first, then by fewer collisions, by fewer blocked authorizations
and by more authorizations. -/
protected def compare : Standing → Standing → Ordering :=
  compareLex (compareOn runnable) <|
  compareLex (fun a b => compareOn colliding b a) <|
  compareLex (fun a b => compareOn blocked b a) <|
  compareOn authorizations

instance : Ord Standing := ⟨Standing.compare⟩

instance : Std.TransCmp Standing.compare := by
  unfold Standing.compare; infer_instance

instance : Std.TransOrd Standing := inferInstanceAs (Std.TransCmp Standing.compare)

instance : Std.LawfulEqOrd Standing where
  eq_of_compare := by
    rintro ⟨r, c, b, n⟩ ⟨r', c', b', n'⟩ h
    obtain ⟨hr, h⟩ := compareLex_eq_eq.1 h
    obtain ⟨hc, h⟩ := compareLex_eq_eq.1 h
    obtain ⟨hb, hn⟩ := compareLex_eq_eq.1 h
    simp only [compareOn, Std.LawfulEqOrd.compare_eq_iff_eq] at hr hc hb hn
    simp [hr, hc, hb, hn]

end Standing

end BatchOrder
