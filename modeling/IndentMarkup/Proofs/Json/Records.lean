import Mathlib.Data.List.Perm.Lattice
import IndentMarkup.Command.Config
import IndentMarkup.Json.Records
import IndentMarkup.Proofs.Json.Writer

/-! Records are read back from their JSON form, whatever order their members stand in. -/
namespace IndentMarkup.Json

/-! Values of fields. -/

@[simp] theorem bool?_bool (b : Bool) : bool? (bool b) = some b := rfl

@[simp] theorem text?_text (t : Text) : text? (text t) = some t := rfl

@[simp] theorem char?_text (c : Char) : char? (text [c]) = some c := rfl

theorem natBelow?_nat {bound n : Nat} (h : n < bound) : natBelow? bound (nat n) = some n := by
  simp [natBelow?, nat, h]

@[simp] theorem list?_texts (ts : List Text) : list? text? (texts ts) = some ts := by
  induction ts with
  | nil => rfl
  | cons t ts ih =>
    rw [texts, list?] at ih ⊢
    rw [List.map_cons, List.mapM_cons, ih, text?_text]
    rfl

/-- A value that is not written as null can be left out. -/
theorem nullable?_elim {α : Type} {value? : Json → Option α} {write : α → Json}
    (h : ∀ a, value? (write a) = some a) (hnull : ∀ a, write a ≠ null) (a : Option α) :
    nullable? value? (a.elim null write) = some a := by
  cases a with
  | none => rfl
  | some a =>
    rw [Option.elim_some, nullable?, h]
    · rfl
    · exact hnull a

@[simp] theorem needed_some {α : Type} (value? : Json → Option α) (j : Json) :
    needed value? (some j) = value? j := rfl

@[simp] theorem withDefault_some {α : Type} (default : α) (value? : Json → Option α) (j : Json) :
    withDefault default value? (some j) = value? j := rfl

/-! Members of a record. -/

theorem filter_name_eq_nil {members : List (Text × Json)} {name : Text}
    (h : name ∉ members.map Prod.fst) : members.filter (fun m => m.1 == name) = [] := by
  rw [List.filter_eq_nil_iff]
  intro m hm heq
  exact h (eq_of_beq heq ▸ List.mem_map_of_mem hm)

theorem filter_name_eq_singleton {fields : List (Text × Json)} {field : Text × Json}
    (hfield : field ∈ fields) (hnames : (fields.map Prod.fst).Nodup) :
    fields.filter (fun m => m.1 == field.1) = [field] := by
  induction fields with
  | nil => simp at hfield
  | cons f fields ih =>
    rw [List.map_cons, List.nodup_cons] at hnames
    rcases List.mem_cons.mp hfield with rfl | hmem
    · rw [List.filter_cons_of_pos (by simp), filter_name_eq_nil hnames.1]
    · have hne : f.1 ≠ field.1 := fun h => hnames.1 (h ▸ List.mem_map_of_mem hmem)
      rw [List.filter_cons_of_neg (by simpa using hne), ih hmem hnames.2]

/-- A field is found among members of other names, in whatever order they stand. -/
theorem member?_of_perm {members fields extra : List (Text × Json)} {field : Text × Json}
    (hfield : field ∈ fields) (hnames : (fields.map Prod.fst).Nodup)
    (hextra : ∀ m ∈ extra, m.1 ∉ fields.map Prod.fst) (hperm : members.Perm (fields ++ extra)) :
    member? members field.1 = some (some field.2) := by
  have hnone : field.1 ∉ extra.map Prod.fst := by
    intro h
    obtain ⟨m, hm, heq⟩ := List.mem_map.mp h
    exact hextra m hm (heq ▸ List.mem_map_of_mem hfield)
  have hone := hperm.filter fun m => m.1 == field.1
  rw [List.filter_append, filter_name_eq_singleton hfield hnames, filter_name_eq_nil hnone,
    List.append_nil, List.perm_singleton] at hone
  rw [member?, hone]

theorem member?_of_notMem {members : List (Text × Json)} {name : Text}
    (h : name ∉ members.map Prod.fst) : member? members name = some none := by
  rw [member?, filter_name_eq_nil h]

theorem mapM_eq_some_map {α β : Type} {f : α → Option β} {g : α → β} {l : List α}
    (h : ∀ a ∈ l, f a = some (g a)) : l.mapM f = some (l.map g) := by
  induction l with
  | nil => rfl
  | cons a l ih =>
    rw [List.mapM_cons, h a List.mem_cons_self, ih fun b hb => h b (List.mem_cons_of_mem _ hb)]
    rfl

theorem fields?_record {members fields extra : List (Text × Json)}
    (hnames : (fields.map Prod.fst).Nodup) (hextra : ∀ m ∈ extra, m.1 ∉ fields.map Prod.fst)
    (hperm : members.Perm (fields ++ extra)) :
    fields? (fields.map Prod.fst) (record members) = some (fields.map fun f => some f.2) := by
  have hkeys : (members.map fun m => (some m.1, m.2)).mapM
      (fun (m : Option Text × Json) => m.1.map (·, m.2)) = some members := by
    rw [List.mapM_map]
    exact (mapM_eq_some_map fun _ _ => rfl).trans (congrArg some (List.map_id members))
  have hfound : (fields.map Prod.fst).mapM (member? members) =
      some (fields.map fun f => some f.2) := by
    rw [List.mapM_map]
    exact mapM_eq_some_map fun f hf => member?_of_perm hf hnames hextra hperm
  rw [record, fields?]
  simp only [hkeys]
  exact hfound

theorem fields?_array (fields : List (Text × Json)) :
    fields? (fields.map Prod.fst) (.array (fields.map Prod.snd)) =
      some (fields.map fun f => some f.2) := by
  simp [fields?]

/-- The members of an object whose names are well formed. -/
def members : Json → List (Text × Json)
  | .object members => members.filterMap fun m => m.1.map (·, m.2)
  | .array _ | .scalar _ => []

@[simp] theorem members_record (fields : List (Text × Json)) :
    (record fields).members = fields := by
  simp [record, members, List.filterMap_map]

/-- A value is read back from what is written for it, also if the members stand in another order or
among others whose names are unknown, and from the array of its fields. -/
structure RoundTrips {α : Type} [Form α] (v : α) : Prop where
  written : parse? α (Form.encode v).write = some v
  rearranged : ∀ extra members : List (Text × Text),
    (∀ m ∈ extra, m.1 ∉ (Form.encode v).members.map Prod.fst ∧ (read? m.2).isSome) →
      members.Perm ((Form.encode v).members.map (fun m => (m.1, m.2.write)) ++ extra) →
        parse? α (objectText members) = some v
  array : parse? α (Json.array ((Form.encode v).members.map Prod.snd)).write = some v

/-- It is enough that the value is made from its fields. -/
theorem roundTrips_of_fields {α : Type} [Form α] {v : α} {fields : List (Text × Json)}
    (hencode : Form.encode v = record fields) (hnames : (fields.map Prod.fst).Nodup)
    (hdecode : ∀ j, fields? (fields.map Prod.fst) j = some (fields.map fun f => some f.2) →
      Form.decode? j = some v) : RoundTrips v := by
  have hparse {t : Text} {j : Json} (ht : read? t = some j)
      (hj : fields? (fields.map Prod.fst) j = some (fields.map fun f => some f.2)) :
      parse? α t = some v := by
    rw [parse?, ht]
    exact hdecode j hj
  have hself : fields.Perm (fields ++ []) := by rw [List.append_nil]
  refine ⟨?_, ?_, ?_⟩
  · rw [hencode]
    exact hparse (read?_write _) (fields?_record hnames (by simp) hself)
  · rw [hencode, members_record]
    intro extra members hextra hperm
    have hread : ∀ m ∈ members, (read? m.2).isSome := by
      intro m hm
      rcases List.mem_append.mp (hperm.mem_iff.mp hm) with hm | hm
      · obtain ⟨f, -, rfl⟩ := List.mem_map.mp hm
        simp
      · exact (hextra m hm).2
    -- the values of the members, in the order in which they stand
    have hvalues := hperm.map fun m : Text × Text => (m.1, (read? m.2).getD null)
    have hfields : (fields.map fun m => (m.1, m.2.write)).map
        (fun m : Text × Text => (m.1, (read? m.2).getD null)) = fields := by
      rw [List.map_map]
      exact (List.map_congr_left fun f _ => by simp).trans (List.map_id fields)
    rw [List.map_append, hfields] at hvalues
    refine hparse (read?_objectText hread) (fields?_record hnames ?_ hvalues)
    intro m hm
    obtain ⟨e, he, rfl⟩ := List.mem_map.mp hm
    exact (hextra e he).1
  · rw [hencode, members_record]
    exact hparse (read?_write _) (fields?_array fields)

theorem roundTrips_options (o : Options) : RoundTrips o := by
  refine roundTrips_of_fields rfl (by simp) fun j h => ?_
  simp only [List.map_cons, List.map_nil] at h
  simp only [Form.decode?, h]
  simp

theorem roundTrips_selector (s : Selector) : RoundTrips s := by
  refine roundTrips_of_fields rfl (by simp) fun j h => ?_
  have hid : nullable? text? (textOrNull s.id) = some s.id :=
    nullable?_elim text?_text (fun _ => nofun) s.id
  simp only [List.map_cons, List.map_nil] at h
  simp only [Form.decode?, h]
  simp [hid]

theorem roundTrips_attribute (a : Attribute) : RoundTrips a := by
  refine roundTrips_of_fields rfl (by simp) fun j h => ?_
  simp only [List.map_cons, List.map_nil] at h
  simp only [Form.decode?, h]
  simp

theorem roundTrips_openTag {t : Html.OpenTag} (ht : t.level < UInt64.size) : RoundTrips t := by
  refine roundTrips_of_fields rfl (by simp) fun j h => ?_
  simp only [List.map_cons, List.map_nil] at h
  simp only [Form.decode?, h]
  simp [natBelow?_nat ht]

theorem roundTrips_span (s : Span) : RoundTrips s := by
  refine roundTrips_of_fields rfl (by simp) fun j h => ?_
  have hstart : natBelow? UInt32.size (nat s.start.toNat) = some s.start.toNat :=
    natBelow?_nat s.start.toNat_lt
  have hstop : natBelow? UInt32.size (nat s.stop.toNat) = some s.stop.toNat :=
    natBelow?_nat s.stop.toNat_lt
  simp only [List.map_cons, List.map_nil] at h
  simp only [Form.decode?, h]
  simp [hstart, hstop]

theorem roundTrips_configFile (f : ConfigFile) : RoundTrips f := by
  refine roundTrips_of_fields rfl (by simp) fun j h => ?_
  have hcompress := nullable?_elim bool?_bool (fun _ => nofun) f.compress
  have htoken := nullable?_elim char?_text (fun _ => nofun) f.token
  have hextensions := nullable?_elim list?_texts (fun _ => nofun) f.extensions
  have houtDir : nullable? text? (textOrNull f.outDir) = some f.outDir :=
    nullable?_elim text?_text (fun _ => nofun) f.outDir
  simp only [List.map_cons, List.map_nil] at h
  simp only [Form.decode?, ConfigFile.fieldNames, h]
  simp [hcompress, htoken, hextensions, houtDir]

end IndentMarkup.Json
