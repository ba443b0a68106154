import BatchOrder.Json.Parser
import BatchOrder.Json.Printer
import BatchOrder.Proofs.Json.Scanning

/-!
# Written values are read back

The reader is led through the written form of a value token by token.  Wherever a value may come
next, at the start of a text, behind a bracket, a comma or a colon, it reads the written form of a
value as this value and hands it to what it is inside of.

Main results:

- Theorem `Reading.finish?_chars_append`: a written token is one step of the reader.
- Theorem `Reading.reads_of_plain`: a written value is read wherever a value may come next.
- Theorem `Json.parse?_render`: a written value is read back.
-/

namespace BatchOrder

/-- A value with a written form of its own: so have all its scalars, and the names of its members
denote texts. -/
inductive Json.Plain : Json → Prop
  | scalar {s : Scalar} (hs : s.Plain) : Plain (.scalar s)
  | array {items : List Json} (hitems : ∀ v ∈ items, Plain v) : Plain (.array items)
  | object {members : List (Option String × Json)} (hnames : ∀ m ∈ members, m.1.isSome)
      (hvalues : ∀ m ∈ members, Plain m.2) : Plain (.object members)

namespace Reading

/-- Reading a written token is one step. -/
theorem finish?_chars_append (r : Reading) {t : Token} (ht : t.Plain) {rest : List Char}
    (hrest : t.Precedes rest) :
    r.finish? (t.chars ++ rest) = (r.step? t).bind (finish? · rest) := by
  rcases Token.exists_chars_eq_cons ht with ⟨c, cs, hcs, hc⟩
  have hscan := Token.scan?_chars_append ht hrest
  have hdrop : (t.chars ++ rest).dropWhile isBlank = t.chars ++ rest := by
    rw [hcs, List.cons_append]
    exact List.dropWhile_cons_of_neg (by simp [hc])
  rw [finish?.eq_def, hdrop]
  rw [hcs, List.cons_append] at hscan ⊢
  dsimp only
  split
  · next hnone =>
    rw [hscan] at hnone
    cases hnone
  · next hsome =>
    rw [hscan] at hsome
    cases hsome
    rfl

/-! ## Where a value or a name may come next -/

/-- A value may come next, inside of what is on the stack. -/
def Awaits (r : Reading) (stack : List Frame) : Prop :=
  ∀ t, t ≠ .closeArray → r.step? t = start? stack t

/-- At the start of a value a value may come next. -/
theorem awaits_value (stack : List Frame) : (value stack).Awaits stack := fun _ _ => rfl

/-- Behind the opening of an array a value may come next, inside of that array. -/
theorem awaits_firstItem (stack : List Frame) : (firstItem stack).Awaits (.array [] :: stack) := by
  intro t ht
  cases t with
  | closeArray => exact absurd rfl ht
  | _ => rfl

/-- A name may come next, in an object with the given members so far, the latest first. -/
def AwaitsName (r : Reading) (members : List (Option String × Json)) (stack : List Frame) : Prop :=
  ∀ s, r.step? (.scalar (.text s)) = some (colon members s stack)

/-- Wherever a value may come next, its written form is read as this value. -/
def Reads (v : Json) : Prop :=
  ∀ {r : Reading} {stack : List Frame} {rest : List Char}, r.Awaits stack → Number.Ends rest →
    r.finish? (v.tokens.flatMap Token.chars ++ rest) = (give v stack).finish? rest

/-! ## Reading what was written -/

/-- Written items are read one after another up to the end of the array. -/
theorem finish?_itemTokens {v : Json} {vs : List Json} (hreads : ∀ w ∈ v :: vs, Reads w)
    {r : Reading} {acc : List Json} {stack : List Frame} (hr : r.Awaits (.array acc :: stack))
    (rest : List Char) :
    r.finish? ((Json.itemTokens (v :: vs)).flatMap Token.chars ++ ']' :: rest) =
      (give (.array (acc.reverse ++ v :: vs)) stack).finish? rest := by
  induction vs generalizing v r acc with
  | nil =>
      have hends : Number.Ends (']' :: rest) := by simp [Number.Ends]
      have hclose : (give v (.array acc :: stack)).finish? (']' :: rest) =
          (give (.array (v :: acc).reverse) stack).finish? rest :=
        finish?_chars_append _ (t := .closeArray) trivial trivial
      rw [Json.itemTokens, hreads v List.mem_cons_self hr hends, hclose, List.reverse_cons]
  | cons w vs ih =>
      have htokens : (Json.itemTokens (v :: w :: vs)).flatMap Token.chars ++ ']' :: rest =
          v.tokens.flatMap Token.chars ++
            ',' :: ((Json.itemTokens (w :: vs)).flatMap Token.chars ++ ']' :: rest) := by
        simp [Json.itemTokens, Token.chars]
      have hends (cs : List Char) : Number.Ends (',' :: cs) := by simp [Number.Ends]
      have hcomma (cs : List Char) : (give v (.array acc :: stack)).finish? (',' :: cs) =
          (value (.array (v :: acc) :: stack)).finish? cs :=
        finish?_chars_append _ (t := .comma) trivial trivial
      have hitems := ih (fun u hu => hreads u (List.mem_cons_of_mem _ hu))
        (awaits_value (.array (v :: acc) :: stack))
      rw [htokens, hreads v List.mem_cons_self hr (hends _), hcomma, hitems, List.reverse_cons,
        List.append_assoc, List.singleton_append]

/-- A written member is read where a name may come next. -/
theorem finish?_member {name : Option String} {v : Json} (hname : name.isSome) (hv : Reads v)
    {r : Reading} {acc : List (Option String × Json)} {stack : List Frame}
    (hr : r.AwaitsName acc stack) {rest : List Char} (hrest : Number.Ends rest) :
    r.finish? ((.scalar (.text name) :: .colon :: v.tokens).flatMap Token.chars ++ rest) =
      (afterMember ((name, v) :: acc) stack).finish? rest := by
  have hcolon : (colon acc name stack).finish? (':' :: (v.tokens.flatMap Token.chars ++ rest)) =
      (value (.member acc name :: stack)).finish? (v.tokens.flatMap Token.chars ++ rest) :=
    finish?_chars_append _ (t := .colon) trivial trivial
  rw [List.flatMap_cons, List.append_assoc,
    finish?_chars_append r (t := .scalar (.text name)) hname trivial, hr, Option.bind_some]
  exact hcolon.trans (hv (awaits_value _) hrest)

/-- Written members are read one after another up to the end of the object. -/
theorem finish?_memberTokens {name : Option String} {v : Json} {ms : List (Option String × Json)}
    (hnames : ∀ m ∈ (name, v) :: ms, m.1.isSome) (hreads : ∀ m ∈ (name, v) :: ms, Reads m.2)
    {r : Reading} {acc : List (Option String × Json)} {stack : List Frame}
    (hr : r.AwaitsName acc stack) (rest : List Char) :
    r.finish? ((Json.memberTokens ((name, v) :: ms)).flatMap Token.chars ++ '\x7d' :: rest) =
      (give (.object (acc.reverse ++ (name, v) :: ms)) stack).finish? rest := by
  have hname : name.isSome := hnames _ List.mem_cons_self
  have hv : Reads v := hreads _ List.mem_cons_self
  cases ms with
  | nil =>
      have hends : Number.Ends ('\x7d' :: rest) := by simp [Number.Ends]
      have hclose : (afterMember ((name, v) :: acc) stack).finish? ('\x7d' :: rest) =
          (give (.object ((name, v) :: acc).reverse) stack).finish? rest :=
        finish?_chars_append _ (t := .closeObject) trivial trivial
      rw [Json.memberTokens, finish?_member hname hv hr hends, hclose, List.reverse_cons]
  | cons m ms =>
      rcases m with ⟨name', w⟩
      have htokens : (Json.memberTokens ((name, v) :: (name', w) :: ms)).flatMap Token.chars ++
            '\x7d' :: rest =
          (.scalar (.text name) :: .colon :: v.tokens).flatMap Token.chars ++
            ',' :: ((Json.memberTokens ((name', w) :: ms)).flatMap Token.chars ++
              '\x7d' :: rest) := by
        simp [Json.memberTokens, Token.chars]
      have hends (cs : List Char) : Number.Ends (',' :: cs) := by simp [Number.Ends]
      have hcomma (cs : List Char) : (afterMember ((name, v) :: acc) stack).finish? (',' :: cs) =
          (nextName ((name, v) :: acc) stack).finish? cs :=
        finish?_chars_append _ (t := .comma) trivial trivial
      have hmembers := finish?_memberTokens (fun m hm => hnames m (List.mem_cons_of_mem _ hm))
        (fun m hm => hreads m (List.mem_cons_of_mem _ hm))
        (r := nextName ((name, v) :: acc) stack) (fun _ => rfl) rest
      rw [htokens, finish?_member hname hv hr (hends _), hcomma, hmembers, List.reverse_cons,
        List.append_assoc, List.singleton_append]

/-- A written value is read wherever a value may come next. -/
theorem reads_of_plain {v : Json} (hv : v.Plain) : Reads v := by
  induction hv with
  | @scalar s hs =>
      intro r stack rest hr hrest
      have hstep : r.step? (.scalar s) = some (give (.scalar s) stack) := hr _ (by simp)
      rw [Json.tokens, List.flatMap_cons, List.flatMap_nil, List.append_nil,
        finish?_chars_append r (t := .scalar s) hs (Token.precedes_of_ends _ hrest), hstep,
        Option.bind_some]
  | @array items _ ih =>
      intro r stack rest hr hrest
      have hopen (cs : List Char) : r.finish? ('[' :: cs) = (firstItem stack).finish? cs := by
        have hread : r.finish? ('[' :: cs) = (r.step? .openArray).bind (finish? · cs) :=
          finish?_chars_append r (t := .openArray) trivial trivial
        rwa [hr _ (by simp)] at hread
      cases items with
      | nil => exact (hopen _).trans (finish?_chars_append _ (t := .closeArray) trivial trivial)
      | cons v vs =>
          have htokens : (Json.array (v :: vs)).tokens.flatMap Token.chars ++ rest =
              '[' :: ((Json.itemTokens (v :: vs)).flatMap Token.chars ++ ']' :: rest) := by
            simp [Json.tokens, Token.chars]
          rw [htokens, hopen, finish?_itemTokens ih (awaits_firstItem stack)]
          rfl
  | @object members hnames _ ih =>
      intro r stack rest hr hrest
      have hopen (cs : List Char) : r.finish? ('\x7b' :: cs) = (firstName stack).finish? cs := by
        have hread : r.finish? ('\x7b' :: cs) = (r.step? .openObject).bind (finish? · cs) :=
          finish?_chars_append r (t := .openObject) trivial trivial
        rwa [hr _ (by simp)] at hread
      cases members with
      | nil => exact (hopen _).trans (finish?_chars_append _ (t := .closeObject) trivial trivial)
      | cons m ms =>
          rcases m with ⟨name, v⟩
          have hfirst : (firstName stack).AwaitsName [] stack := fun _ => rfl
          have htokens : (Json.object ((name, v) :: ms)).tokens.flatMap Token.chars ++ rest =
              '\x7b' :: ((Json.memberTokens ((name, v) :: ms)).flatMap Token.chars ++
                '\x7d' :: rest) := by
            simp [Json.tokens, Token.chars]
          rw [htokens, hopen, finish?_memberTokens hnames ih hfirst]
          rfl

end Reading

/-- A written value is read back. -/
theorem Json.parse?_render {v : Json} (hv : v.Plain) : parse? v.render = some v := by
  have hread : (Reading.value []).finish? (v.tokens.flatMap Token.chars) =
      (Reading.done v).finish? [] := by
    have hrest := Reading.reads_of_plain hv (Reading.awaits_value []) Number.ends_nil
    rwa [List.append_nil] at hrest
  have hdone : (Reading.done v).finish? [] = some (.done v) := by
    rw [Reading.finish?.eq_def]
    rfl
  rw [parse?, render, String.toList_ofList, hread, hdone]

end BatchOrder
