import DocQuery.Tree.Reader

/-!
# Reading what was written

A group is written as an array and a token as an object, and each is read back as what it was, at any depth and with
any payload (`Node.ofJson?_toJson`). A token can also be given as an array of its kind and its payload. No array can be
read in both ways (`Node.ofItems?_of_listOfJson?`): what spells a kind is no node.
-/

namespace DocQuery

/-! ## Tokens -/

theorem TokenKind.ofJson?_name (kind : TokenKind) : TokenKind.ofJson? (.str kind.name) = some kind := by
  cases kind <;> rfl

theorem Token.ofFields?_toJson (t : Token) :
    Token.ofFields? [("type", .str t.kind.name), ("value", t.value)] = some t := by
  have htype : Token.once? "type" [("type", .str t.kind.name), ("value", t.value)] = some (.str t.kind.name) := rfl
  have hvalue : Token.once? "value" [("type", .str t.kind.name), ("value", t.value)] = some t.value := rfl
  simp [Token.ofFields?, htype, hvalue, TokenKind.ofJson?_name]

/-- One field is not both the kind and the payload of a token. -/
theorem Token.ofFields?_singleton (field : String × Json) : Token.ofFields? [field] = none := by
  obtain ⟨key, value⟩ := field
  unfold Token.ofFields? Token.once?
  by_cases hkey : key = "type"
  · subst hkey
    simp
  · simp [hkey]

/-! ## Nodes -/

namespace Node

mutual

theorem ofJson?_toJson : ∀ node : Node, ofJson? node.toJson = some node
  | .token t => by rw [toJson, Token.toJson, ofJson?, Token.ofFields?_toJson]; rfl
  | .group nodes => by rw [toJson, ofJson?, listOfJson?_listToJson nodes]

theorem listOfJson?_listToJson : ∀ nodes : List Node, listOfJson? (listToJson nodes) = some nodes
  | [] => rfl
  | node :: rest => by
    rw [listToJson, listOfJson?, ofJson?_toJson node, listOfJson?_listToJson rest]
    rfl

end

/-- What spells the kind of a token is not a node itself. -/
theorem ofJson?_of_kind {json : Json} {kind : TokenKind} (h : TokenKind.ofJson? json = some kind) :
    ofJson? json = none := by
  unfold TokenKind.ofJson? at h
  split at h
  · rw [ofJson?]
  · rw [ofJson?, Token.ofFields?_singleton]
    rfl
  · cases h

/-- **No array is both a group and a token.** -/
theorem ofItems?_of_listOfJson? {items : List Json} {nodes : List Node} (h : listOfJson? items = some nodes) :
    Token.ofItems? items = none := by
  unfold Token.ofItems?
  split
  · rename_i kind value
    cases hkind : TokenKind.ofJson? kind with
    | none => rfl
    | some k =>
      -- The first item would have to be a node.
      rw [listOfJson?, ofJson?_of_kind hkind] at h
      cases h
  · rfl

/-- An array that spells a token is read as that token. -/
theorem ofJson?_of_ofItems? {items : List Json} {t : Token} (h : Token.ofItems? items = some t) :
    ofJson? (.arr items) = some (.token t) := by
  have hlist : listOfJson? items = none := by
    cases hnodes : listOfJson? items with
    | none => rfl
    | some nodes =>
      rw [ofItems?_of_listOfJson? hnodes] at h
      cases h
  rw [ofJson?, hlist, h]
  rfl

example : ofJson? (.arr [.str "KEY", .arr []]) = some (.token ⟨.key, .arr []⟩) := rfl

end Node

/-! ## Trees -/

theorem Group.ofJson_listToJson (g : Group) : Group.ofJson (.arr (Node.listToJson g)) = .ok g := by
  rw [Group.ofJson, Node.listOfJson?_listToJson]

theorem Tree.ofJson_toJson (t : Tree) : Tree.ofJson t.toJson = .ok t := by
  have hgroups : ∀ groups : List Group,
      (groups.map fun g => Json.arr (Node.listToJson g)).mapM Group.ofJson = .ok groups := by
    intro groups
    induction groups with
    | nil => rfl
    | cons g groups ih =>
      rw [List.map_cons, List.mapM_cons, Group.ofJson_listToJson, ih]
      rfl
  rw [Tree.toJson, Tree.ofJson, hgroups]
  rfl

/-- **Reading undoes writing.** Every tree is read back from its JSON form. So whatever a tree was read from, writing it
and reading it again gives the same tree. An array can spell a token as well, and is read as that token; but no array of
nodes spells one. -/
theorem Tree.reading_undoes_writing :
    (∀ t : Tree, Tree.ofJson t.toJson = .ok t) ∧
    (∀ (json : Json) (t : Tree), Tree.ofJson json = .ok t → Tree.ofJson t.toJson = .ok t) ∧
    (∀ node : Node, Node.ofJson? node.toJson = some node) ∧
    (∀ (items : List Json) (t : Token), Token.ofItems? items = some t → Node.ofJson? (.arr items) = some (.token t)) ∧
    ∀ (items : List Json) (nodes : List Node), Node.listOfJson? items = some nodes → Token.ofItems? items = none := by
  refine ⟨Tree.ofJson_toJson, ?_, Node.ofJson?_toJson, ?_, ?_⟩
  · intro json t _
    exact t.ofJson_toJson
  · intro items t h
    exact Node.ofJson?_of_ofItems? h
  · intro items nodes h
    exact Node.ofItems?_of_listOfJson? h

end DocQuery
