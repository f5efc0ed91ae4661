import IndentMarkup.Json.Reader

/-! A text is read as a value if its tokens are those of the value, and only then. -/
namespace IndentMarkup.Json

/-- Induction on the parts of a value. -/
@[elab_as_elim]
theorem parts_induction {P : Json → Prop} (scalar : ∀ s, P (.scalar s))
    (array : ∀ items, (∀ j ∈ items, P j) → P (.array items))
    (object : ∀ members, (∀ m ∈ members, P m.2) → P (.object members)) (j : Json) : P j :=
  match j with
  | .scalar s => scalar s
  | .array items => array items fun j _ => parts_induction scalar array object j
  | .object members => object members fun m _ => parts_induction scalar array object m.2
termination_by j
decreasing_by
  · decreasing_tactic
  · have := List.sizeOf_lt_of_mem ‹m ∈ members›
    have : sizeOf m.2 < sizeOf m := by
      rw [Prod.mk.sizeOf_spec m.1 m.2]
      omega
    simp only [Json.object.sizeOf_spec]
    omega

mutual

/-- The tokens of a value. -/
def toTokens : Json → List Token
  | .scalar s => [.scalar s]
  | .array items => .arrayStart :: itemTokens items ++ [.arrayEnd]
  | .object members => .objectStart :: memberTokens members ++ [.objectEnd]

def itemTokens : List Json → List Token
  | [] => []
  | [j] => j.toTokens
  | j :: items => j.toTokens ++ .comma :: itemTokens items

def memberTokens : List (Option Text × Json) → List Token
  | [] => []
  | [(key, j)] => .scalar (.string key) :: .colon :: j.toTokens
  | (key, j) :: members =>
    .scalar (.string key) :: .colon :: j.toTokens ++ .comma :: memberTokens members

end

/-! What the readers give, without the proof that something was read. -/

def value? (ts : List Token) : Option (Json × List Token) :=
  (readValue ts).map fun (j, rest) => (j, rest.val)

def items? (ts : List Token) : Option (List Json × List Token) :=
  (readItems ts).map fun (items, rest) => (items, rest.val)

def members? (ts : List Token) : Option (List (Option Text × Json) × List Token) :=
  (readMembers ts).map fun (members, rest) => (members, rest.val)

@[simp] theorem value?_scalar (s : Scalar) (rest : List Token) :
    value? (.scalar s :: rest) = some (.scalar s, rest) := by
  simp [value?, readValue]

@[simp] theorem value?_array_nil (rest : List Token) :
    value? (.arrayStart :: .arrayEnd :: rest) = some (.array [], rest) := by
  simp [value?, readValue]

@[simp] theorem value?_object_nil (rest : List Token) :
    value? (.objectStart :: .objectEnd :: rest) = some (.object [], rest) := by
  simp [value?, readValue]

theorem items?_eq (ts : List Token) : items? ts =
    (value? ts).bind fun (j, behind) =>
      match behind with
      | .arrayEnd :: rest => some ([j], rest)
      | .comma :: ts => (items? ts).map fun (items, rest) => (j :: items, rest)
      | _ => none := by
  rw [items?, readItems, value?]
  cases hr : readValue ts with
  | none => rfl
  | some r =>
    obtain ⟨j, behind, h⟩ := r
    cases behind with
    | nil => rfl
    | cons token ts =>
      cases token with
      | comma => cases hi : readItems ts <;> simp [items?, hi]
      | _ => rfl

theorem members?_eq (key : Option Text) (ts : List Token) :
    members? (.scalar (.string key) :: .colon :: ts) =
      (value? ts).bind fun (j, behind) =>
        match behind with
        | .objectEnd :: rest => some ([(key, j)], rest)
        | .comma :: ts => (members? ts).map fun (members, rest) => ((key, j) :: members, rest)
        | _ => none := by
  rw [members?, readMembers, value?]
  cases hr : readValue ts with
  | none => rfl
  | some r =>
    obtain ⟨j, behind, h⟩ := r
    cases behind with
    | nil => rfl
    | cons token ts =>
      cases token with
      | comma => cases hi : readMembers ts <;> simp [members?, hi]
      | _ => rfl

theorem value?_array {ts : List Token} (h : ∀ rest, ts ≠ .arrayEnd :: rest) :
    value? (.arrayStart :: ts) = (items? ts).map fun (items, rest) => (.array items, rest) := by
  rw [value?, readValue]
  · cases hr : readItems ts <;> simp [items?, hr]
  · exact h

theorem value?_object {ts : List Token} (h : ∀ rest, ts ≠ .objectEnd :: rest) :
    value? (.objectStart :: ts) =
      (members? ts).map fun (members, rest) => (.object members, rest) := by
  rw [value?, readValue]
  · cases hr : readMembers ts <;> simp [members?, hr]
  · exact h

theorem ne_arrayEnd_of_items? {ts rest : List Token} {items : List Json}
    (h : items? ts = some (items, rest)) (more : List Token) : ts ≠ .arrayEnd :: more := by
  rintro rfl
  have hnone : value? (.arrayEnd :: more) = none := by simp [value?, readValue]
  rw [items?_eq, hnone] at h
  simp at h

theorem ne_objectEnd_of_members? {ts rest : List Token} {members : List (Option Text × Json)}
    (h : members? ts = some (members, rest)) (more : List Token) : ts ≠ .objectEnd :: more := by
  rintro rfl
  simp [members?, readMembers] at h

theorem items?_itemTokens {j : Json} {items : List Json}
    (h : ∀ i ∈ j :: items, ∀ rest, value? (i.toTokens ++ rest) = some (i, rest))
    (rest : List Token) :
    items? (itemTokens (j :: items) ++ .arrayEnd :: rest) = some (j :: items, rest) := by
  rw [items?_eq]
  induction items generalizing j with
  | nil => simp [itemTokens, h j]
  | cons i items ih =>
    have hi := ih (fun k hk => h k (List.mem_cons_of_mem _ hk))
    rw [← items?_eq] at hi
    simp [itemTokens, h j, hi]

theorem members?_memberTokens {m : Option Text × Json} {members : List (Option Text × Json)}
    (h : ∀ n ∈ m :: members, ∀ rest, value? (n.2.toTokens ++ rest) = some (n.2, rest))
    (rest : List Token) :
    members? (memberTokens (m :: members) ++ .objectEnd :: rest) = some (m :: members, rest) := by
  induction members generalizing m with
  | nil => simp [memberTokens, members?_eq, h m]
  | cons n members ih =>
    have hn := ih fun k hk => h k (List.mem_cons_of_mem _ hk)
    simp [memberTokens, members?_eq, h m, hn]

/-- The tokens of a value are read as that value, whatever follows. -/
theorem value?_toTokens (j : Json) (rest : List Token) :
    value? (j.toTokens ++ rest) = some (j, rest) := by
  induction j using parts_induction generalizing rest with
  | scalar s => simp [toTokens]
  | array items ih =>
    cases items with
    | nil => simp [toTokens, itemTokens]
    | cons j items =>
      have hi := items?_itemTokens ih rest
      simp [toTokens, value?_array (ne_arrayEnd_of_items? hi), hi]
  | object members ih =>
    cases members with
    | nil => simp [toTokens, memberTokens]
    | cons m members =>
      have hm := members?_memberTokens ih rest
      simp [toTokens, value?_object (ne_objectEnd_of_members? hm), hm]

theorem length_of_value? {ts : List Token} {j : Json} {rest : List Token}
    (h : value? ts = some (j, rest)) : rest.length < ts.length := by
  obtain ⟨⟨k, more⟩, -, ⟨rfl, rfl⟩⟩ := Option.map_eq_some_iff.mp h
  exact more.property

/-! What each reader takes from the front is the tokens of what it gives. -/

def ValueSound (ts : List Token) : Prop :=
  ∀ j rest, value? ts = some (j, rest) → ts = j.toTokens ++ rest

def ItemsSound (ts : List Token) : Prop :=
  ∀ items rest, items? ts = some (items, rest) →
    items ≠ [] ∧ ts = itemTokens items ++ .arrayEnd :: rest

def MembersSound (ts : List Token) : Prop :=
  ∀ members rest, members? ts = some (members, rest) →
    members ≠ [] ∧ ts = memberTokens members ++ .objectEnd :: rest

theorem itemsSound_step {ts : List Token} (hv : ValueSound ts)
    (hmore : ∀ more, (Token.comma :: more).length < ts.length → ItemsSound more) :
    ItemsSound ts := by
  intro items rest h
  rw [items?_eq, Option.bind_eq_some_iff] at h
  obtain ⟨⟨j, behind⟩, hj, h⟩ := h
  have hlength := length_of_value? hj
  rw [hv j behind hj]
  dsimp only at h
  split at h
  · obtain ⟨rfl, rfl⟩ := by simpa using h
    simp [itemTokens]
  · next more =>
    obtain ⟨⟨items, rest⟩, hi, ⟨rfl, rfl⟩⟩ := Option.map_eq_some_iff.mp h
    obtain ⟨hne, rfl⟩ := hmore more hlength items rest hi
    obtain ⟨i, items, rfl⟩ := List.exists_cons_of_ne_nil hne
    simp [itemTokens]
  · simp at h

theorem membersSound_step (key : Option Text) {ts : List Token} (hv : ValueSound ts)
    (hmore : ∀ more, (Token.comma :: more).length < ts.length → MembersSound more) :
    MembersSound (.scalar (.string key) :: .colon :: ts) := by
  intro members rest h
  rw [members?_eq, Option.bind_eq_some_iff] at h
  obtain ⟨⟨j, behind⟩, hj, h⟩ := h
  have hlength := length_of_value? hj
  rw [hv j behind hj]
  dsimp only at h
  split at h
  · obtain ⟨rfl, rfl⟩ := by simpa using h
    simp [memberTokens]
  · next more =>
    obtain ⟨⟨members, rest⟩, hm, ⟨rfl, rfl⟩⟩ := Option.map_eq_some_iff.mp h
    obtain ⟨hne, rfl⟩ := hmore more hlength members rest hm
    obtain ⟨m, members, rfl⟩ := List.exists_cons_of_ne_nil hne
    simp [memberTokens]
  · simp at h

theorem valueSound (ts : List Token) : ValueSound ts := by
  -- one case for each branch of the three readers
  refine (readValue.mutual_induct ValueSound MembersSound ItemsSound
    ?_ ?_ ?_ ?_ ?_ ?_ ?_ ?_ ?_).1 ts
  · intro s more j rest h
    obtain ⟨rfl, rfl⟩ : .scalar s = j ∧ more = rest := by simpa using h
    rfl
  · intro more j rest h
    obtain ⟨rfl, rfl⟩ : .array [] = j ∧ more = rest := by simpa using h
    rfl
  · intro ts hts ih j rest h
    rw [value?_array hts, Option.map_eq_some_iff] at h
    obtain ⟨⟨items, rest⟩, hi, ⟨rfl, rfl⟩⟩ := h
    obtain ⟨-, rfl⟩ := ih items rest hi
    simp [toTokens]
  · intro more j rest h
    obtain ⟨rfl, rfl⟩ : .object [] = j ∧ more = rest := by simpa using h
    rfl
  · intro ts hts ih j rest h
    rw [value?_object hts, Option.map_eq_some_iff] at h
    obtain ⟨⟨members, rest⟩, hm, ⟨rfl, rfl⟩⟩ := h
    obtain ⟨-, rfl⟩ := ih members rest hm
    simp [toTokens]
  · intro ts h1 h2 h3 h4 h5 j rest h
    simp [value?, readValue.eq_6 ts h1 h2 h3 h4 h5] at h
  · exact fun key ts => membersSound_step key
  · intro ts hts members rest h
    simp [members?, readMembers.eq_2 ts hts] at h
  · exact fun ts => itemsSound_step

/-- A text is read as a value exactly if its tokens are those of the value. -/
theorem read?_eq_some_iff {t : Text} {j : Json} :
    read? t = some j ↔ tokens t = some j.toTokens := by
  have hread : read? t = (tokens t).bind fun ts =>
      (value? ts).bind fun (j, rest) => if rest = [] then some j else none := by
    cases ht : tokens t with
    | none => simp [read?, ht]
    | some ts =>
      simp only [read?, ht, value?]
      rcases hv : readValue ts with _ | ⟨k, _ | ⟨token, rest⟩, h⟩ <;> simp [hv]
  rw [hread]
  constructor
  · intro h
    obtain ⟨ts, hts, h⟩ := Option.bind_eq_some_iff.mp h
    obtain ⟨⟨k, rest⟩, hk, h⟩ := Option.bind_eq_some_iff.mp h
    obtain ⟨rfl, rfl⟩ : rest = [] ∧ k = j := by simpa using h
    rw [hts, valueSound ts k [] hk, List.append_nil]
  · intro h
    have hv := value?_toTokens j []
    rw [List.append_nil] at hv
    simp [h, hv]

end IndentMarkup.Json
