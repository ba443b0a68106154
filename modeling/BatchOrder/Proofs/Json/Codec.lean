import BatchOrder.Json.Codec
import BatchOrder.Proofs.Json.Reading

/-!
# Lawful codecs

A codec is lawful for a class of data if these data are read from the values that are written for
them, and if nothing else is ever read.  Lawful codecs of parts are put together to lawful codecs of
the whole.  As what is written for a datum has a written form of its own, the datum is read from the
text as well, and whatever is read from some other text is read again once it has been written.

Main results:

- Theorems `bool_lawful` to `octets_lawful`: scalars, absence, arrays and byte strings.
- Theorem `record_lawful`: a record whose fields are lawful and have different names.
- Theorem `Lawful.roundTrips`: a lawful codec reads what it has written.
-/

namespace BatchOrder.Codec

variable {α β : Type}

/-- Data of a class are read from the values written for them, and nothing else is read.  What is
written always has a written form of its own. -/
structure Lawful (c : Codec α) (admits : α → Prop) : Prop where
  plain : ∀ x, (c.encode x).Plain
  decode?_encode : ∀ x, admits x → c.decode? (c.encode x) = some x
  admits_of_decode? : ∀ v x, c.decode? v = some x → admits x

/-- What is written is a text of JSON for the value that stands for the datum.  Data of a class are
read from what is written for them, and whatever is read from some text is read again when it has
been written anew. -/
structure RoundTrips (c : Codec α) (admits : α → Prop) : Prop where
  parse?_write : ∀ x, Json.parse? (c.write x) = some (c.encode x)
  read?_write : ∀ x, admits x → c.read? (c.write x) = some x
  read?_write_of_read? : ∀ text x, c.read? text = some x → c.read? (c.write x) = some x

variable {c : Codec α} {d : Codec β} {admits : α → Prop} {admits' : β → Prop}

/-- Data of the class are read from what is written for them. -/
theorem Lawful.read?_write (hc : c.Lawful admits) {x : α} (hx : admits x) :
    c.read? (c.write x) = some x := by
  rw [read?, write, Json.parse?_render (hc.plain x), Option.bind_some, hc.decode?_encode x hx]

/-- Whatever is read belongs to the class. -/
theorem Lawful.admits_of_read? (hc : c.Lawful admits) {text : String} {x : α}
    (hread : c.read? text = some x) : admits x := by
  rcases Option.bind_eq_some_iff.1 hread with ⟨v, _, hv⟩
  exact hc.admits_of_decode? v x hv

/-- A lawful codec reads what it has written. -/
theorem Lawful.roundTrips (hc : c.Lawful admits) : c.RoundTrips admits where
  parse?_write x := Json.parse?_render (hc.plain x)
  read?_write _ hx := hc.read?_write hx
  read?_write_of_read? _ _ hread := hc.read?_write (hc.admits_of_read? hread)

/-- Data that correspond to data of a lawful codec. -/
theorem Lawful.xmap (hc : c.Lawful admits) {f : α → β} {g : β → α} (hfg : ∀ y, f (g y) = y)
    (hg : ∀ y, admits' y → admits (g y)) (hf : ∀ x, admits x → admits' (f x)) :
    (c.xmap f g).Lawful admits' where
  plain y := hc.plain (g y)
  decode?_encode y hy := by
    have hread := hc.decode?_encode (g y) (hg y hy)
    simp [Codec.xmap, hread, hfg]
  admits_of_decode? v y hread := by
    rcases Option.map_eq_some_iff.1 hread with ⟨x, hx, rfl⟩
    exact hf x (hc.admits_of_decode? v x hx)

/-! ## Scalars -/

theorem bool_lawful : bool.Lawful fun _ => True where
  plain _ := .scalar trivial
  decode?_encode _ _ := rfl
  admits_of_decode? _ _ _ := trivial

theorem text_lawful : text.Lawful fun _ => True where
  plain _ := .scalar (by simp [Scalar.Plain])
  decode?_encode _ _ := rfl
  admits_of_decode? _ _ _ := trivial

/-- Numbers below a bound are read back, and no others are read. -/
theorem natBelow_lawful (bound : Nat) : (natBelow bound).Lawful (· < bound) where
  plain n := .scalar ⟨n, rfl⟩
  decode?_encode n hn := by
    have hdigits : (Nat.toDigits 10 n).all Char.isDigit :=
      List.all_eq_true.2 fun _ => Number.isDigit_of_mem_toDigits
    simp only [natBelow, Json.number]
    rw [if_pos hdigits, Nat.ofDigitChars_ten_toDigits, if_pos hn]
  admits_of_decode? v n hread := by
    unfold natBelow at hread
    dsimp only at hread
    split at hread
    · split at hread
      · split at hread
        · next hlt =>
          cases hread
          exact hlt
        · cases hread
      · cases hread
    · cases hread

theorem count_lawful : count.Lawful (· < UInt64.size) := natBelow_lawful _

theorem byte_lawful : byte.Lawful fun _ => True :=
  (natBelow_lawful _).xmap (fun _ => UInt8.ofNat_toNat) (fun y _ => y.toNat_lt) fun _ _ => trivial

theorem word32_lawful : word32.Lawful fun _ => True :=
  (natBelow_lawful _).xmap (fun _ => UInt32.ofNat_toNat) (fun y _ => y.toNat_lt) fun _ _ => trivial

theorem word64_lawful : word64.Lawful fun _ => True :=
  (natBelow_lawful _).xmap (fun _ => UInt64.ofNat_toNat) (fun y _ => y.toNat_lt) fun _ _ => trivial

/-- A datum or its absence, if no datum is written as null. -/
theorem option_lawful (hc : c.Lawful fun _ => True) (hnull : ∀ x, c.encode x ≠ .scalar .null) :
    (option c).Lawful fun _ => True where
  plain
    | none => .scalar trivial
    | some x => hc.plain x
  decode?_encode
    | none, _ => rfl
    | some x, _ => by
      simp only [option]
      split
      · next heq => exact absurd heq (hnull x)
      · rw [hc.decode?_encode x trivial, Option.map_some]
  admits_of_decode? _ _ _ := trivial

/-! ## Arrays -/

/-- Elements that are read back one by one are read back in a row. -/
theorem mapM_decode?_map_encode (hc : c.Lawful admits) {xs : List α} (hxs : ∀ x ∈ xs, admits x) :
    (xs.map c.encode).mapM c.decode? = some xs := by
  induction xs with
  | nil => rfl
  | cons x xs ih =>
      rw [List.map_cons, List.mapM_cons, hc.decode?_encode x (hxs x List.mem_cons_self),
        ih fun y hy => hxs y (List.mem_cons_of_mem _ hy)]
      rfl

/-- Whatever is read in a row belongs to the class, one by one. -/
theorem admits_of_mapM_decode? (hc : c.Lawful admits) {vs : List Json} {xs : List α}
    (hread : vs.mapM c.decode? = some xs) : ∀ x ∈ xs, admits x := by
  induction vs generalizing xs with
  | nil =>
      cases hread
      simp
  | cons v vs ih =>
      rw [List.mapM_cons] at hread
      rcases Option.bind_eq_some_iff.1 hread with ⟨x, hx, hread⟩
      rcases Option.bind_eq_some_iff.1 hread with ⟨ys, hys, hread⟩
      cases hread
      rw [List.forall_mem_cons]
      exact ⟨hc.admits_of_decode? v x hx, ih hys⟩

/-- Lists are read back if their elements are. -/
theorem list_lawful (hc : c.Lawful admits) : (list c).Lawful fun xs => ∀ x ∈ xs, admits x where
  plain xs := .array fun v hv => by
    rcases List.mem_map.1 hv with ⟨x, _, rfl⟩
    exact hc.plain x
  decode?_encode _ hxs := mapM_decode?_map_encode hc hxs
  admits_of_decode?
    | .array _, _, hread => admits_of_mapM_decode? hc hread

/-- Pairs are read back if their halves are. -/
theorem pair_lawful (hc : c.Lawful admits) (hd : d.Lawful admits') :
    (pair c d).Lawful fun p => admits p.1 ∧ admits' p.2 where
  plain p := .array fun v hv => by
    simp only [List.mem_cons, List.not_mem_nil, or_false] at hv
    rcases hv with rfl | rfl
    · exact hc.plain p.1
    · exact hd.plain p.2
  decode?_encode p hp := by
    simp [pair, hc.decode?_encode p.1 hp.1, hd.decode?_encode p.2 hp.2]
  admits_of_decode?
    | .array [v, w], _, hread => by
      rcases Option.bind_eq_some_iff.1 hread with ⟨x, hx, hread⟩
      rcases Option.bind_eq_some_iff.1 hread with ⟨y, hy, hread⟩
      cases hread
      exact ⟨hc.admits_of_decode? v x hx, hd.admits_of_decode? w y hy⟩

/-- Byte strings are read back from their bytes. -/
theorem octets_lawful (n : Nat) : (octets n).Lawful fun _ => True where
  plain o := (list_lawful byte_lawful).plain o.toBytes
  decode?_encode o _ := by
    simp only [octets]
    rw [(list_lawful byte_lawful).decode?_encode _ fun _ _ => trivial, Option.bind_some,
      Octets.ofBytes?_toBytes]
  admits_of_decode? _ _ _ := trivial

/-! ## Records -/

/-- Data of a class are read from the values written for their fields, and nothing else is read. -/
structure Fields.Lawful (fields : Fields α) (admits : α → Prop) : Prop where
  length_encode : ∀ x, (fields.encode x).length = fields.specs.length
  plain : ∀ x, ∀ v ∈ fields.encode x, v.Plain
  decode?_encode : ∀ x, admits x → fields.decode? (fields.encode x) = some x
  admits_of_decode? : ∀ vs x, fields.decode? vs = some x → admits x

/-- No fields are read back from no values. -/
theorem Fields.nil_lawful : Fields.nil.Lawful fun _ => True where
  length_encode _ := rfl
  plain _ v hv := by cases hv
  decode?_encode _ _ := rfl
  admits_of_decode? _ _ _ := trivial

/-- Fields are read back if the first one and the others are. -/
theorem Fields.consWith_lawful {name : String} {missing : Option Json} {rest : Fields β}
    (hc : c.Lawful admits) (hrest : rest.Lawful admits') :
    (Fields.consWith name missing c rest).Lawful fun x => admits x.1 ∧ admits' x.2 where
  length_encode x := congrArg Nat.succ (hrest.length_encode x.2)
  plain x := List.forall_mem_cons.2 ⟨hc.plain x.1, hrest.plain x.2⟩
  decode?_encode x hx := by
    simp [Fields.consWith, hc.decode?_encode x.1 hx.1, hrest.decode?_encode x.2 hx.2]
  admits_of_decode?
    | v :: vs, _, hread => by
      rcases Option.bind_eq_some_iff.1 hread with ⟨x, hx, hread⟩
      rcases Option.bind_eq_some_iff.1 hread with ⟨y, hy, hread⟩
      cases hread
      exact ⟨hc.admits_of_decode? v x hx, hrest.admits_of_decode? vs y hy⟩

/-- Fields of which the first one may not be missing are read back if it and the others are. -/
theorem Fields.cons_lawful {name : String} {rest : Fields β} (hc : c.Lawful admits)
    (hrest : rest.Lawful admits') :
    (Fields.cons name c rest).Lawful fun x => admits x.1 ∧ admits' x.2 :=
  Fields.consWith_lawful hc hrest

/-- Fields of different names are found among the members that are written for them, whatever
members of other names stand before. -/
theorem mapM_find?_append_zip {specs : List FieldSpec} {values : List Json}
    (hdistinct : (specs.map FieldSpec.name).Nodup) (hlength : values.length = specs.length)
    (before : List (Option String × Json))
    (hbefore : ∀ m ∈ before, ∀ f ∈ specs, m.1 ≠ some f.name) :
    (specs.mapM fun f => f.find? (before ++ (specs.map fun f => some f.name).zip values)) =
      some values := by
  induction specs generalizing values before with
  | nil =>
      rw [List.length_eq_zero_iff.1 hlength]
      rfl
  | cons f specs ih =>
      obtain ⟨v, values, rfl⟩ := List.exists_cons_of_length_eq_add_one hlength
      rw [List.map_cons, List.nodup_cons] at hdistinct
      have hother (m : Option String × Json)
          (hm : m ∈ (specs.map fun f => some f.name).zip values) : m.1 ≠ some f.name := by
        rcases List.mem_map.1 (List.of_mem_zip hm).1 with ⟨g, hg, hgm⟩
        rw [← hgm]
        intro heq
        rw [← Option.some.inj heq] at hdistinct
        exact hdistinct.1 (List.mem_map_of_mem hg)
      have hfind : f.find? (before ++ ((f :: specs).map fun f => some f.name).zip (v :: values)) =
          some v := by
        have hnone : before.filter (fun m => m.1 == some f.name) = [] :=
          List.filter_eq_nil_iff.2 fun m hm => by simpa using hbefore m hm f List.mem_cons_self
        have hnone' : ((specs.map fun f => some f.name).zip values).filter
            (fun m => m.1 == some f.name) = [] :=
          List.filter_eq_nil_iff.2 fun m hm => by simpa using hother m hm
        simp [FieldSpec.find?, List.filter_append, hnone, hnone']
      have hrest := ih hdistinct.2 (Nat.succ.inj hlength) (before ++ [(some f.name, v)]) (by
        intro m hm g hg
        rcases List.mem_append.1 hm with hm | hm
        · exact hbefore m hm g (List.mem_cons_of_mem _ hg)
        · rw [List.mem_singleton.1 hm]
          intro heq
          rw [Option.some.inj heq] at hdistinct
          exact hdistinct.1 (List.mem_map_of_mem hg))
      rw [List.append_assoc] at hrest
      rw [List.mapM_cons, hfind]
      exact congrArg (Option.bind · fun vs => some (v :: vs)) hrest

/-- A record is read back if its fields are and have different names. -/
theorem record_lawful {fields : Fields α} (hdistinct : (fields.specs.map FieldSpec.name).Nodup)
    (h : fields.Lawful admits) : (record fields).Lawful admits where
  plain x := by
    refine .object (fun m hm => ?_) fun m hm => h.plain x _ (List.of_mem_zip hm).2
    rcases List.mem_map.1 (List.of_mem_zip hm).1 with ⟨f, _, hf⟩
    rw [← hf]
    rfl
  decode?_encode x hx := by
    have hnames : ¬ ((fields.specs.map fun f => some f.name).zip (fields.encode x)).any
        fun m => m.1.isNone := by
      rw [List.any_eq_true]
      rintro ⟨m, hm, hnone⟩
      rcases List.mem_map.1 (List.of_mem_zip hm).1 with ⟨f, _, hf⟩
      rw [← hf] at hnone
      cases hnone
    have hvalues := mapM_find?_append_zip hdistinct (h.length_encode x) [] (by simp)
    rw [List.nil_append] at hvalues
    simp only [record, Fields.values?]
    rw [if_neg hnames, hvalues, Option.bind_some, h.decode?_encode x hx]
  admits_of_decode? v x hread := by
    rcases Option.bind_eq_some_iff.1 hread with ⟨vs, _, hvs⟩
    exact h.admits_of_decode? vs x hvs

end BatchOrder.Codec
