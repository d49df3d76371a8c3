import Folio.Proofs.Asn1.Tree

/-!
# Reading trees of elements

Main statement: `parse_encode`, the element that is read from an encoding has all of it and nothing of what
follows, and the elements inside it, read again and again from the contents, are the nodes of the tree.
A mark ends an element of indefinite length, so `findEnd_encodeAll` has to pass over whole children; those of
a definite one are read from its contents alone.
-/

namespace Folio.Asn1

/-- An element and the elements that it consists of, to any depth. -/
inductive Nest where
  | node (element : Element) (parts : List Nest)

namespace Element

/-- The elements inside an element, to any depth below `fuel`. -/
def nestWithin : Nat → Element → Except Error Nest
  | 0, _ => .error .tooDeep
  | fuel + 1, e =>
    if e.isConstructed then do
      let elements ← e.childList
      let parts ← elements.mapM (nestWithin fuel)
      .ok (.node e parts)
    else .ok (.node e [])

/-- The elements inside an element. -/
def nest (e : Element) : Except Error Nest := nestWithin (e.raw.length + 1) e

end Element

namespace Tree

mutual

/-- The elements of a tree. -/
def nest : Tree → Nest
  | primitive identifier length contents => .node (primitive identifier length contents).element []
  | definite identifier length children =>
    .node (definite identifier length children).element (nestAll children)
  | indefinite identifier children =>
    .node (indefinite identifier children).element (nestAll children)

/-- The elements of some trees. -/
def nestAll : List Tree → List Nest
  | [] => []
  | t :: ts => t.nest :: nestAll ts

end

end Tree

namespace Element

variable {t : Tree} {ts : List Tree} {contents length rest : Bytes} {depth levels fuel : Nat}

/-! ## One element -/

theorem before_append (data rest : Bytes) : before (data ++ rest) rest = data := by
  simp [before]

/-- The element of which the length comes next, and all of which is at the start of `data`. -/
def readBody (levels : Nat) (tag : UInt8) (data body : Bytes) : Except Error (Element × Bytes) := do
  let (length, body) ← readLength body
  match length with
  | some length =>
    match Bytes.splitAt? body length with
    | some (contents, rest) => .ok (⟨tag, before data rest, contents⟩, rest)
    | none => .error .unexpectedEnd
  | none =>
    if !isConstructedTag tag then throw .invalidLength
    let mark ← findEnd (readNested levels) (body.length + 1) body
    let rest := mark.drop 2
    .ok (⟨tag, before data rest, before body mark⟩, rest)

theorem readNested_cons (tag : UInt8) (data : Bytes) : readNested (levels + 1) (tag :: data) =
    (if tag &&& 0x1F = 0x1F then dropLongTag data else .ok data) >>= readBody levels tag (tag :: data) := by
  rw [readNested]
  split <;> rfl

theorem readNested_octets (i : Identifier) (data : Bytes) :
    readNested (levels + 1) (i.octets ++ data) = readBody levels i.tag (i.octets ++ data) data := by
  rw [Identifier.octets, List.cons_append, readNested_cons, i.dropMore]
  rfl

theorem readNested_definite (i : Identifier) (h : LengthCode contents.length length) (rest : Bytes) :
    readNested (levels + 1) (i.octets ++ (length ++ contents) ++ rest) =
      .ok (⟨i.tag, i.octets ++ (length ++ contents), contents⟩, rest) := by
  have hraw := before_append (i.octets ++ (length ++ contents)) rest
  have hsplit : Bytes.splitAt? (contents ++ rest) contents.length = some (contents, rest) :=
    Bytes.splitAt?_eq_some.mpr ⟨rfl, rfl⟩
  rw [List.append_assoc] at hraw ⊢
  rw [readNested_octets, readBody, List.append_assoc, h.readLength_append]
  simp only [bind, Except.bind, hsplit]
  rw [← List.append_assoc length, hraw]

theorem readNested_indefinite (i : Identifier) (hconstructed : isConstructedTag i.tag = true)
    (hend : findEnd (readNested levels) ((contents ++ 0 :: 0 :: rest).length + 1)
      (contents ++ 0 :: 0 :: rest) = .ok (0 :: 0 :: rest)) :
    readNested (levels + 1) (i.octets ++ (0x80 :: (contents ++ [0, 0])) ++ rest) =
      .ok (⟨i.tag, i.octets ++ (0x80 :: (contents ++ [0, 0])), contents⟩, rest) := by
  have hraw := before_append (i.octets ++ (0x80 :: (contents ++ [0, 0]))) rest
  have hcontents := before_append contents (0 :: 0 :: rest)
  have hlength : readLength (0x80 :: (contents ++ [0, 0] ++ rest)) =
      .ok (none, contents ++ 0 :: 0 :: rest) := by
    rw [List.append_assoc]
    rfl
  rw [List.append_assoc, List.cons_append] at hraw ⊢
  rw [readNested_octets, readBody, hlength]
  simp only [bind, Except.bind, hconstructed, Bool.not_true, Bool.false_eq_true, if_false, hend,
    hcontents]
  rw [List.drop_succ_cons, List.drop_succ_cons, List.drop_zero, hraw]

/-! ## Elements up to a mark -/

theorem findEnd_cons {read : Bytes → Except Error (Element × Bytes)} {data : Bytes} {e : Element}
    (hlength : 2 ≤ data.length) (hmark : ¬ [0, 0] <+: data)
    (hread : read (data ++ rest) = .ok (e, rest)) :
    findEnd read (fuel + 1) (data ++ rest) = findEnd read fuel rest := by
  match data, hlength with
  | a :: b :: data, _ =>
    simp only [List.cons_append] at hread ⊢
    rw [findEnd]
    · rw [hread]
      rfl
    · rintro rfl rfl
      exact hmark (List.prefix_append [0, 0] data)

theorem findEnd_encodeAll {read : Bytes → Except Error (Element × Bytes)}
    (hread : ∀ t ∈ ts, ∀ rest, read (t.encode ++ rest) = .ok (t.element, rest))
    (hlength : ∀ t ∈ ts, 2 ≤ t.encode.length) (hmark : ∀ t ∈ ts, ¬ [0, 0] <+: t.encode)
    (hfuel : ts.length < fuel) (rest : Bytes) :
    findEnd read fuel (Tree.encodeAll ts ++ 0 :: 0 :: rest) = .ok (0 :: 0 :: rest) := by
  induction ts generalizing fuel with
  | nil =>
    obtain ⟨fuel, rfl⟩ := Nat.exists_eq_succ_of_ne_zero (Nat.ne_zero_of_lt hfuel)
    rfl
  | cons t ts ih =>
    obtain ⟨fuel, rfl⟩ := Nat.exists_eq_succ_of_ne_zero (Nat.ne_zero_of_lt hfuel)
    obtain ⟨hreadFirst, hread⟩ := List.forall_mem_cons.mp hread
    obtain ⟨hlengthFirst, hlength⟩ := List.forall_mem_cons.mp hlength
    obtain ⟨hmarkFirst, hmark⟩ := List.forall_mem_cons.mp hmark
    rw [Tree.encodeAll, List.append_assoc, findEnd_cons hlengthFirst hmarkFirst (hreadFirst _)]
    exact ih hread hlength hmark (Nat.lt_of_succ_lt_succ hfuel)

/-! ## Trees -/

theorem readNested_encode (h : t.Encodable depth) (rest : Bytes) :
    readNested (maxNesting + 1 - depth) (t.encode ++ rest) = .ok (t.element, rest) := by
  have hlevels : ∀ {depth : Nat}, depth ≤ maxNesting →
      maxNesting + 1 - depth = (maxNesting - depth) + 1 := fun h => Nat.succ_sub h
  induction h generalizing rest with
  | primitive hdepth _ hlength =>
    rw [hlevels hdepth]
    exact readNested_definite _ hlength rest
  | definite hdepth _ hlength _ =>
    rw [hlevels hdepth]
    exact readNested_definite _ hlength rest
  | @indefinite depth i ts hdepth htag hchildren hmark ih =>
    have htwo : ∀ t ∈ ts, 2 ≤ t.encode.length := fun t ht => (hchildren t ht).two_le_length
    have hread : ∀ t ∈ ts, ∀ rest, readNested (maxNesting - depth) (t.encode ++ rest) =
        .ok (t.element, rest) := by
      intro t ht rest
      have hchild := ih t ht rest
      rwa [Nat.add_sub_add_right] at hchild
    have hfuel : ts.length < (Tree.encodeAll ts ++ 0 :: 0 :: rest).length + 1 := by
      have hle := Tree.length_le_encodeAll htwo
      simp only [List.length_append]
      omega
    rw [hlevels hdepth]
    exact readNested_indefinite i htag (findEnd_encodeAll hread htwo hmark hfuel rest)

theorem read_encode (h : t.Encodable 0) (rest : Bytes) : read (t.encode ++ rest) = .ok (t.element, rest) :=
  readNested_encode h rest

theorem readAll_encodeAll (h : ∀ t ∈ ts, t.Encodable 0) (hfuel : ts.length ≤ fuel) :
    readAll fuel (Tree.encodeAll ts) = (ts.map Tree.element, none) := by
  induction ts generalizing fuel with
  | nil => cases fuel <;> rfl
  | cons t ts ih =>
    obtain ⟨ht, hts⟩ := List.forall_mem_cons.mp h
    obtain ⟨fuel, rfl⟩ := Nat.exists_eq_succ_of_ne_zero (Nat.ne_zero_of_lt hfuel)
    have htwo := ht.two_le_length
    have hne : (t.encode ++ Tree.encodeAll ts).isEmpty = false := by
      rw [List.isEmpty_eq_false_iff, ← List.length_pos_iff, List.length_append]
      omega
    rw [Tree.encodeAll, readAll, hne]
    simp only [Bool.false_eq_true, if_false, read_encode ht, ih hts (Nat.le_of_succ_le_succ hfuel),
      List.map_cons]

/-- The elements in the contents of a constructed element. -/
theorem childList_eq_ok {e : Element} (hcontents : e.contents = Tree.encodeAll ts)
    (h : ∀ t ∈ ts, t.Encodable 0) : e.childList = .ok (ts.map Tree.element) := by
  have hfuel := Tree.length_le_encodeAll fun t ht => (h t ht).two_le_length
  rw [childList, children, hcontents, readAll_encodeAll h hfuel]

/-! ## The elements inside an element -/

theorem mapM_nestWithin (h : ∀ t ∈ ts, nestWithin fuel t.element = .ok t.nest) :
    (ts.map Tree.element).mapM (nestWithin fuel) = .ok (Tree.nestAll ts) := by
  induction ts with
  | nil => rfl
  | cons t ts ih =>
    obtain ⟨ht, hts⟩ := List.forall_mem_cons.mp h
    rw [List.map_cons, List.mapM_cons, ht, ih hts]
    rfl

theorem nestWithin_constructed {e : Element} (htag : isConstructedTag e.tag = true)
    (hcontents : e.contents = Tree.encodeAll ts) (hchildren : ∀ t ∈ ts, t.Encodable 0)
    (hnest : ∀ t ∈ ts, nestWithin fuel t.element = .ok t.nest) :
    nestWithin (fuel + 1) e = .ok (.node e (Tree.nestAll ts)) := by
  rw [nestWithin, isConstructed, if_pos htag, childList_eq_ok hcontents hchildren]
  simp only [bind, Except.bind, mapM_nestWithin hnest]

theorem nestWithin_element (h : t.Encodable depth) (hfuel : t.encode.length < fuel) :
    nestWithin fuel t.element = .ok t.nest := by
  induction h generalizing fuel with
  | @primitive _ i length contents _ htag _ =>
    obtain ⟨fuel, rfl⟩ := Nat.exists_eq_succ_of_ne_zero (Nat.ne_zero_of_lt hfuel)
    have hprimitive : (Tree.primitive i length contents).element.isConstructed = false := htag
    rw [nestWithin, hprimitive, Tree.nest]
    rfl
  | @definite _ i length ts _ htag _ hchildren ih =>
    obtain ⟨fuel, rfl⟩ := Nat.exists_eq_succ_of_ne_zero (Nat.ne_zero_of_lt hfuel)
    have hnest : ∀ t ∈ ts, nestWithin fuel t.element = .ok t.nest := by
      intro t ht
      have hle := Tree.length_encode_le ht
      simp only [Tree.encode, Identifier.octets, List.length_append, List.length_cons] at hfuel
      exact ih t ht (by omega)
    rw [Tree.nest]
    exact nestWithin_constructed htag rfl hchildren hnest
  | @indefinite _ i ts _ htag hchildren _ ih =>
    obtain ⟨fuel, rfl⟩ := Nat.exists_eq_succ_of_ne_zero (Nat.ne_zero_of_lt hfuel)
    have hnest : ∀ t ∈ ts, nestWithin fuel t.element = .ok t.nest := by
      intro t ht
      have hle := Tree.length_encode_le ht
      simp only [Tree.encode, Identifier.octets, List.length_append, List.length_cons] at hfuel
      exact ih t ht (by omega)
    -- the contents are read anew, so no element is around the children any more
    have hinner : ∀ t ∈ ts, t.Encodable 0 := fun t ht => (hchildren t ht).anti (Nat.zero_le _)
    rw [Tree.nest]
    exact nestWithin_constructed htag rfl hinner hnest

/-- A tree of elements is read back from its encoding, whatever follows. -/
theorem parse_encode (h : t.Encodable 0) (rest : Bytes) :
    ∃ e, parse (t.encode ++ rest) = .ok e ∧ e.raw = t.encode ∧ e.nest = .ok t.nest := by
  refine ⟨t.element, ?_, rfl, ?_⟩
  · rw [parse, read_encode h]
    rfl
  · exact nestWithin_element h (Nat.lt_succ_self _)

/-- An identifier of one octet. -/
def shortIdentifier (tag : UInt8) (h : tag &&& 0x1F ≠ 0x1F) : Identifier :=
  ⟨tag, [], by rw [if_neg h]⟩

/-- The identifier of a constructed element with the number 128. -/
def longIdentifier : Identifier :=
  ⟨0xBF, [0x81, 0x00], .marked (by decide) (.last (by decide))⟩

/-- Elements of both forms inside each other. One length is longer than it has to be, and in the contents
of two elements there are bytes that look like a mark. -/
def mixedTree : Tree :=
  .indefinite (shortIdentifier 0x30 (by decide))
    [.definite longIdentifier [0x82, 0x00, 0x06]
      [.indefinite (shortIdentifier 0xA0 (by decide)) [],
        .primitive (shortIdentifier 0x00 (by decide)) [0x00] []],
      .primitive (shortIdentifier 0x04 (by decide)) [0x02] [0x00, 0x00]]

theorem encodable_mixedTree : mixedTree.Encodable 0 := by
  refine .indefinite (by decide) (by decide) ?_ (by simp [Tree.encode, Identifier.octets, longIdentifier,
    shortIdentifier])
  simp only [List.forall_mem_cons]
  refine ⟨.definite (by decide) (by decide) ?_ ?_, .primitive (by decide) (by decide) ?_, by simp⟩
  · exact @LengthCode.long [0x00, 0x06] (by decide) (by decide)
  · simp only [List.forall_mem_cons]
    refine ⟨.indefinite (by decide) (by decide) (by simp) (by simp), ?_, by simp⟩
    exact .primitive (by decide) (by decide) (.short (by decide))
  · exact .short (by decide)

theorem parse_encode_mixedTree : mixedTree.Encodable 0 ∧ mixedTree.encode =
    [0x30, 0x80, 0xBF, 0x81, 0x00, 0x82, 0x00, 0x06, 0xA0, 0x80, 0x00, 0x00, 0x00, 0x00, 0x04, 0x02, 0x00,
      0x00, 0x00, 0x00] ∧ ∃ e, parse (mixedTree.encode ++ [0x00, 0xFF]) = .ok e ∧
      e.raw = mixedTree.encode ∧ e.nest = .ok mixedTree.nest :=
  ⟨encodable_mixedTree, rfl, parse_encode encodable_mixedTree [0x00, 0xFF]⟩

end Element

end Folio.Asn1
