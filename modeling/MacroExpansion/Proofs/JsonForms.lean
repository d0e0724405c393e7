import MacroExpansion.Json.Basic
import Mathlib.Data.List.Forall2
import Mathlib.Data.List.Nodup
import Mathlib.Data.List.OfFn

/-! # Forms of JSON values

What the readers of trees accept is described by *forms*. A form is the JSON value that is written,
with a note of what stands at each place: a text, a record with its field names, an alternative that
carries something or nothing. `Form.json` forgets the notes, and `Form.Accepts` says which values are
read as the form: they may lack fields that are absent, have others in addition and in any order, give
a record as a sequence of its parts, and give an alternative that carries nothing with null.

Once a reader accepts what the forms of its values accept, everything about reading follows from
forms: what is written is read back (`Form.accepts_json`), what is read differs from what is written in
the listed ways only (`Form.Accepts.differs`), and it depends neither on the order of fields
(`Form.Accepts.of_rearranged`) nor on unknown ones (`Form.Accepts.of_sameKnown`). -/

namespace MacroExpansion

namespace Json

/-! ## Depths of parts -/

/-- Every value nests at least once. -/
theorem depth_pos (json : Json) : 0 < json.depth := by
  cases json <;> exact Nat.succ_pos _

/-- An item nests no deeper than the items do. -/
theorem depth_le_itemsDepth {items : List Json} {item : Json} (h : item ∈ items) :
    item.depth ≤ itemsDepth items := by
  induction items with
  | nil => cases h
  | cons first rest ih =>
    rw [itemsDepth]
    rcases List.mem_cons.mp h with rfl | hrest
    · exact Nat.le_max_left ..
    · exact (ih hrest).trans (Nat.le_max_right ..)

/-- A field that is found nests no deeper than the fields do. -/
theorem depth_le_fieldsDepth {fields : List (String × Json)} {name : String} {value : Json}
    (h : fields.lookup name = some value) : value.depth ≤ fieldsDepth fields := by
  induction fields with
  | nil => cases h
  | cons first rest ih =>
    rw [fieldsDepth]
    rw [List.lookup_cons] at h
    split at h
    · cases h
      exact Nat.le_max_left ..
    · exact (ih h).trans (Nat.le_max_right ..)

/-- An alternative is an object of one field, or a bare name. -/
theorem variant?_cases {json payload : Json} {name : String} (h : json.variant? = some (name, payload)) :
    json = .object [(name, payload)] ∨ json = .string name ∧ payload = .null := by
  unfold variant? at h
  split at h
  · cases h
    exact .inr ⟨rfl, rfl⟩
  · cases h
    exact .inl rfl
  · cases h

/-- There is one part for each name. -/
theorem length_of_fields? {json : Json} {names : List String} {given : List (Option Json)}
    (h : json.fields? names = some given) : given.length = names.length := by
  cases json with
  | object fields =>
    cases h
    exact List.length_map _
  | null | bool | int | decimal | string | array => cases h

/-- A record is read into as many parts as it has names. -/
theorem length_of_record? {json : Json} {names : List String} {given : List (Option Json)}
    (h : json.record? names = some given) : given.length = names.length := by
  cases json with
  | array items =>
    rw [record?] at h
    split at h
    · cases h
      rwa [List.length_map]
    · cases h
  | null | bool | int | decimal | string | object => exact length_of_fields? h

/-- A part that nests so deeply, if it is there. -/
def Within (bound : Nat) (part : Option Json) : Prop :=
  ∀ json, part = some json → json.depth ≤ bound

/-- Fields nest less deeply than their object. -/
theorem within_of_fields? {json : Json} {names : List String} {given : List (Option Json)} {bound : Nat}
    (h : json.fields? names = some given) (hdepth : json.depth ≤ bound + 1) :
    ∀ part ∈ given, Within bound part := by
  rintro part hpart value rfl
  cases json with
  | object fields =>
    cases h
    obtain ⟨name, -, hlookup⟩ := List.mem_map.mp hpart
    have hvalue := depth_le_fieldsDepth hlookup
    rw [depth] at hdepth
    omega
  | null | bool | int | decimal | string | array => cases h

/-- Parts nest less deeply than their record. -/
theorem within_of_record? {json : Json} {names : List String} {given : List (Option Json)} {bound : Nat}
    (h : json.record? names = some given) (hdepth : json.depth ≤ bound + 1) :
    ∀ part ∈ given, Within bound part := by
  cases json with
  | array items =>
    rw [record?] at h
    split at h
    · cases h
      rintro part hpart value rfl
      have hvalue : value.depth ≤ itemsDepth items := depth_le_itemsDepth (by simpa using hpart)
      rw [depth] at hdepth
      omega
    · cases h
  | null | bool | int | decimal | string | object => exact within_of_fields? h hdepth

/-! ## Relations of JSON values -/

/-- Alternatives are named with a capital letter, the fields of records without. -/
def isCapital (name : String) : Bool :=
  name.toList.head?.any Char.isUpper

/-- An object that gives an alternative: it has one field, which is named for the alternative. -/
def isAlternative (fields : List (String × Json)) : Bool :=
  match fields with
  | [(name, _)] => isCapital name
  | _ => false

/-- The first value differs from the second, which is written for it, by unknown fields that are left
out and missing fields that are written as null; and, if there are other forms, by records that are
written with their field names and alternatives that carry nothing and are written as names. -/
inductive Differs (otherForms : Prop) : Json → Json → Prop where
  /-- There is no difference. -/
  | same (json : Json) : Differs otherForms json json
  /-- Sequences differ in their items. -/
  | items {given written : List Json} (hlength : given.length = written.length)
    (hitems : ∀ (index : Nat) item item', given[index]? = some item → written[index]? = some item' →
      Differs otherForms item item') : Differs otherForms (.array given) (.array written)
  /-- Alternatives differ in what they carry. -/
  | alternative {name : String} {given written : Json} (hname : isCapital name = true)
    (h : Differs otherForms given written) :
    Differs otherForms (.object [(name, given)]) (.object [(name, written)])
  /-- Records differ in the fields that are written: they are there, or missing and written as null. -/
  | record {given written : List (String × Json)} (hrecord : isAlternative written = false)
    (hpresent : ∀ name part part', (name, part') ∈ written → given.lookup name = some part →
      Differs otherForms part part')
    (hmissing : ∀ name part', (name, part') ∈ written → given.lookup name = none → part' = .null) :
    Differs otherForms (.object given) (.object written)
  /-- A record is given as the sequence of its parts. -/
  | sequence {given : List Json} {written : List (String × Json)} (hother : otherForms)
    (hrecord : isAlternative written = false) (hlength : given.length = written.length)
    (hparts : ∀ (index : Nat) part field, given[index]? = some part → written[index]? = some field →
      Differs otherForms part field.2) : Differs otherForms (.array given) (.object written)
  /-- An alternative that carries nothing is given with null. -/
  | name {name : String} (hother : otherForms) :
    Differs otherForms (.object [(name, .null)]) (.string name)

/-- The values are the same up to the order of fields, anywhere in them. -/
inductive Rearranged : Json → Json → Prop where
  /-- Nothing is rearranged. -/
  | same (json : Json) : Rearranged json json
  /-- The items are rearranged, but not their sequence. -/
  | items {first second : List Json} (hlength : first.length = second.length)
    (hitems : ∀ (index : Nat) item item', first[index]? = some item → second[index]? = some item' →
      Rearranged item item') : Rearranged (.array first) (.array second)
  /-- The same different keys stand in another order, for rearranged values. -/
  | fields {first second : List (String × Json)} (hnodup : (first.map Prod.fst).Nodup)
    (hkeys : (first.map Prod.fst).Perm (second.map Prod.fst))
    (hvalues : ∀ name value value', (name, value) ∈ first → (name, value') ∈ second →
      Rearranged value value') : Rearranged (.object first) (.object second)

/-- Of two values for which the same is written, the known fields are the same: they may differ in the
order of fields and in fields that are not written. -/
inductive SameKnown : Json → Json → Json → Prop where
  /-- The values are the same. -/
  | same (written json : Json) : SameKnown written json json
  /-- The items have the same known fields. -/
  | items {written first second : List Json} (hlength : first.length = second.length)
    (hitems : ∀ (index : Nat) part item item', written[index]? = some part → first[index]? = some item →
      second[index]? = some item' → SameKnown part item item') :
    SameKnown (.array written) (.array first) (.array second)
  /-- What the alternatives carry has the same known fields. -/
  | alternative {name : String} {written first second : Json} (hname : isCapital name = true)
    (h : SameKnown written first second) :
    SameKnown (.object [(name, written)]) (.object [(name, first)]) (.object [(name, second)])
  /-- Every field that is written is there or missing in both. -/
  | record {written first second : List (String × Json)} (hrecord : isAlternative written = false)
    (hsame : ∀ name part, (name, part) ∈ written →
      (first.lookup name).isSome = (second.lookup name).isSome)
    (hparts : ∀ name part value value', (name, part) ∈ written → first.lookup name = some value →
      second.lookup name = some value' → SameKnown part value value') :
    SameKnown (.object written) (.object first) (.object second)
  /-- Of records given as sequences the parts have the same known fields. -/
  | sequence {written : List (String × Json)} {first second : List Json}
    (hlength : first.length = second.length)
    (hparts : ∀ (index : Nat) field part part', written[index]? = some field → first[index]? = some part →
      second[index]? = some part' → SameKnown field.2 part part') :
    SameKnown (.object written) (.array first) (.array second)

end Json

/-! ## Forms -/

/-- The field names of a record: they are different, and none is named as an alternative. -/
structure FieldNames where
  /-- The names in the order in which they are written. -/
  names : List String
  /-- No name stands twice. -/
  nodup : names.Nodup := by decide
  /-- They start without a capital letter. -/
  plain : ∀ name ∈ names, Json.isCapital name = false := by decide

/-- A JSON value with a note of what stands at each place. -/
inductive Form : Type where
  /-- A text. -/
  | text (value : String)
  /-- An integer. -/
  | int (value : Int)
  /-- A truth value. -/
  | bool (value : Bool)
  /-- Null for an optional part that is missing. -/
  | absent
  /-- The name of an alternative that carries nothing. -/
  | bare (name : String)
  /-- A sequence. -/
  | list (count : Nat) (item : Fin count → Form)
  /-- An alternative that carries something. -/
  | alternative (name : String) (hname : Json.isCapital name = true) (payload : Form)
  /-- A record. A record of its own can be given as a sequence, the fields of an alternative not. -/
  | record (fields : FieldNames) (own : Bool) (part : String → Form)

namespace Form

/-- The value that is written. -/
def json : Form → Json
  | text value => .string value
  | int value => .int value
  | bool value => .bool value
  | absent => .null
  | bare name => .string name
  | list _ item => .array (List.ofFn fun index => (item index).json)
  | alternative name _ payload => .object [(name, payload.json)]
  | record fields _ part => .object (fields.names.map fun name => (name, (part name).json))

/-- The values that are read as the form. -/
def Accepts : Form → Json → Prop
  | text value, json => json = .string value
  | int value, json => json = .int value
  | bool value, json => json = .bool value
  | absent, json => json = .null
  | bare name, json => json = .string name ∨ json = .object [(name, .null)]
  | list count item, json => ∃ given, json = .array given ∧ given.length = count ∧
      ∀ (index : Fin count) value, given[index]? = some value → (item index).Accepts value
  | alternative name _ payload, json => ∃ given, json = .object [(name, given)] ∧ payload.Accepts given
  | record fields own part, json =>
      (∃ given, json = .object given ∧ ∀ name ∈ fields.names,
        (∀ value, given.lookup name = some value → (part name).Accepts value) ∧
        (given.lookup name = none → part name = absent)) ∨
      own = true ∧ ∃ given, json = .array given ∧ given.length = fields.names.length ∧
        ∀ (index : Nat) name value, fields.names[index]? = some name → given[index]? = some value →
          (part name).Accepts value

/-! ## What is written -/

/-- Fields that are written carry the names of the record, and what is written for them. -/
theorem mem_json_fields {names : List String} {part : String → Form} {name : String} {value : Json} :
    (name, value) ∈ (names.map fun name => (name, (part name).json)) ↔
      name ∈ names ∧ (part name).json = value := by
  simp only [List.mem_map, Prod.mk.injEq]
  constructor
  · rintro ⟨_, hname, rfl, hvalue⟩
    exact ⟨hname, hvalue⟩
  · rintro ⟨hname, hvalue⟩
    exact ⟨name, hname, rfl, hvalue⟩

/-- A record is written as no alternative. -/
theorem isAlternative_json_fields (fields : FieldNames) (part : String → Form) :
    Json.isAlternative (fields.names.map fun name => (name, (part name).json)) = false := by
  obtain ⟨names, hnodup, hplain⟩ := fields
  match names with
  | [] => rfl
  | [name] => exact hplain name List.mem_cons_self
  | _ :: _ :: _ => rfl

/-- A field that is written holds its part. -/
theorem lookup_json_fields {names : List String} {part : String → Form} {name : String}
    (h : name ∈ names) :
    (names.map fun name => (name, (part name).json)).lookup name = some (part name).json := by
  induction names with
  | nil => cases h
  | cons first rest ih =>
    rw [List.map_cons, List.lookup_cons]
    by_cases hfirst : name = first
    · simp [hfirst]
    · rw [beq_eq_false_iff_ne.mpr hfirst]
      exact ih ((List.mem_cons.mp h).resolve_left hfirst)

/-- What is written is accepted. -/
theorem accepts_json (form : Form) : form.Accepts form.json := by
  induction form with
  | text => rfl
  | int => rfl
  | bool => rfl
  | absent => rfl
  | bare => exact .inl rfl
  | list count item ih =>
    refine ⟨_, rfl, List.length_ofFn, fun index value hvalue => ?_⟩
    have hsame : value = (item index).json := by simpa using hvalue.symm
    exact hsame ▸ ih index
  | alternative name hname payload ih => exact ⟨_, rfl, ih⟩
  | record fields own part ih =>
    refine .inl ⟨_, rfl, fun name hname => ?_⟩
    rw [lookup_json_fields hname]
    exact ⟨fun value hvalue => Option.some.inj hvalue ▸ ih name, nofun⟩

/-- What is accepted differs from what is written in the listed ways. -/
theorem Accepts.differs {form : Form} {json : Json} (h : form.Accepts json) :
    json.Differs True form.json := by
  induction form generalizing json with
  | text => exact h ▸ .same _
  | int => exact h ▸ .same _
  | bool => exact h ▸ .same _
  | absent => exact h ▸ .same _
  | bare name =>
    rcases h with rfl | rfl
    · exact .same _
    · exact .name trivial
  | list count item ih =>
    obtain ⟨given, rfl, hlength, hitems⟩ := h
    refine .items (by rw [hlength, List.length_ofFn]) fun index value value' hvalue hvalue' => ?_
    obtain ⟨hindex, rfl⟩ := List.getElem?_eq_some_iff.mp hvalue'
    rw [List.length_ofFn] at hindex
    rw [List.getElem_ofFn]
    exact ih ⟨index, hindex⟩ (hitems ⟨index, hindex⟩ value hvalue)
  | alternative name hname payload ih =>
    obtain ⟨given, rfl, hpayload⟩ := h
    exact .alternative hname (ih hpayload)
  | record fields own part ih =>
    have hrecord := isAlternative_json_fields fields part
    rcases h with ⟨given, rfl, hparts⟩ | ⟨-, given, rfl, hlength, hparts⟩
    · -- written as a record: unknown fields may be there, and defaults may be missing
      refine .record hrecord (fun name value value' hwritten hgiven => ?_)
        fun name value' hwritten hmissing => ?_
      · obtain ⟨hname, rfl⟩ := mem_json_fields.mp hwritten
        exact ih name ((hparts name hname).1 value hgiven)
      · obtain ⟨hname, rfl⟩ := mem_json_fields.mp hwritten
        rw [(hparts name hname).2 hmissing]
        rfl
    · -- written as a sequence, in the order of the fields
      refine .sequence trivial hrecord (by rw [hlength, List.length_map]) ?_
      intro index value field hvalue hfield
      rw [List.getElem?_map, Option.map_eq_some_iff] at hfield
      obtain ⟨name, hname, rfl⟩ := hfield
      exact ih name (hparts index name value hname hvalue)

/-! ## What does not matter -/

/-- In an object of different keys a key leads to what is listed with it. -/
theorem lookup_eq_some_iff_mem {fields : List (String × Json)} (hnodup : (fields.map Prod.fst).Nodup)
    {name : String} {value : Json} : fields.lookup name = some value ↔ (name, value) ∈ fields := by
  induction fields with
  | nil => simp
  | cons first rest ih =>
    obtain ⟨key, found⟩ := first
    rw [List.map_cons, List.nodup_cons] at hnodup
    rw [List.lookup_cons, List.mem_cons]
    by_cases hkey : name = key
    · subst hkey
      have hnot : (name, value) ∉ rest := fun hmem => hnodup.1 (List.mem_map.mpr ⟨_, hmem, rfl⟩)
      simp [hnot, eq_comm]
    · simp [beq_eq_false_iff_ne.mpr hkey, hkey, ih hnodup.2]

/-- Nothing is found under a name that no field has. -/
theorem lookup_eq_none_iff_notMem {fields : List (String × Json)} {name : String} :
    fields.lookup name = none ↔ name ∉ fields.map Prod.fst := by
  induction fields with
  | nil => simp
  | cons first rest ih =>
    rw [List.lookup_cons, List.map_cons, List.mem_cons, not_or]
    by_cases hkey : name = first.1
    · simp [hkey]
    · simp [beq_eq_false_iff_ne.mpr hkey, hkey, ih]

/-- What stands under a single key stays under it. -/
theorem rearranged_singleton {name : String} {value json : Json}
    (h : Json.Rearranged (.object [(name, value)]) json) :
    ∃ value', json = .object [(name, value')] ∧ value.Rearranged value' := by
  cases h with
  | same => exact ⟨value, rfl, .same value⟩
  | fields hnodup hkeys hvalues =>
    rename_i second
    obtain ⟨⟨key, value'⟩, hsecond, hkey⟩ :=
      List.map_eq_singleton_iff.mp (List.singleton_perm.mp hkeys).symm
    obtain rfl : key = name := hkey
    subst hsecond
    exact ⟨value', rfl, hvalues key value value' List.mem_cons_self List.mem_cons_self⟩

/-- The order of fields does not matter. -/
theorem Accepts.of_rearranged {form : Form} {json json' : Json} (h : form.Accepts json)
    (hrearranged : json.Rearranged json') : form.Accepts json' := by
  induction form generalizing json json' with
  | text => cases h; cases hrearranged; rfl
  | int => cases h; cases hrearranged; rfl
  | bool => cases h; cases hrearranged; rfl
  | absent => cases h; cases hrearranged; rfl
  | bare name =>
    rcases h with rfl | rfl
    · cases hrearranged
      exact .inl rfl
    · obtain ⟨value, rfl, hvalue⟩ := rearranged_singleton hrearranged
      cases hvalue
      exact .inr rfl
  | list count item ih =>
    obtain ⟨given, rfl, hlength, hitems⟩ := h
    cases hrearranged with
    | same => exact ⟨given, rfl, hlength, hitems⟩
    | items hsame hvalues =>
      refine ⟨_, rfl, hsame ▸ hlength, fun index value' hvalue' => ?_⟩
      have hindex : index < given.length := hlength ▸ index.isLt
      have hvalue : given[index.val]? = some given[index.val] := List.getElem?_eq_getElem hindex
      exact ih index (hitems index _ hvalue) (hvalues index _ value' hvalue hvalue')
  | alternative name hname payload ih =>
    obtain ⟨given, rfl, hpayload⟩ := h
    obtain ⟨given', rfl, hgiven⟩ := rearranged_singleton hrearranged
    exact ⟨given', rfl, ih hpayload hgiven⟩
  | record fields own part ih =>
    rcases h with ⟨given, rfl, hparts⟩ | ⟨hown, given, rfl, hlength, hparts⟩
    · cases hrearranged with
      | same => exact .inl ⟨given, rfl, hparts⟩
      | fields hnodup hkeys hvalues =>
        rename_i second
        have hnodup' : (second.map Prod.fst).Nodup := hkeys.nodup_iff.mp hnodup
        refine .inl ⟨second, rfl, fun name hname => ⟨fun value' hvalue' => ?_, fun hmissing => ?_⟩⟩
        · -- the field is found under its key in both, since no key is repeated
          have hmem' := (lookup_eq_some_iff_mem hnodup').mp hvalue'
          have hkey : name ∈ given.map Prod.fst :=
            hkeys.mem_iff.mpr (List.mem_map.mpr ⟨_, hmem', rfl⟩)
          obtain ⟨⟨_, value⟩, hmem, rfl⟩ := List.mem_map.mp hkey
          exact ih _ ((hparts _ hname).1 value ((lookup_eq_some_iff_mem hnodup).mpr hmem))
            (hvalues _ value value' hmem hmem')
        · refine (hparts name hname).2 (lookup_eq_none_iff_notMem.mpr fun hkey => ?_)
          exact lookup_eq_none_iff_notMem.mp hmissing (hkeys.mem_iff.mp hkey)
    · cases hrearranged with
      | same => exact .inr ⟨hown, given, rfl, hlength, hparts⟩
      | items hsame hvalues =>
        refine .inr ⟨hown, _, rfl, hsame ▸ hlength, fun index name value' hname hvalue' => ?_⟩
        have hindex : index < given.length := hlength ▸ (List.getElem?_eq_some_iff.mp hname).1
        have hvalue : given[index]? = some given[index] := List.getElem?_eq_getElem hindex
        exact ih name (hparts index name _ hname hvalue) (hvalues index _ value' hvalue hvalue')

/-- Unknown fields do not matter. -/
theorem Accepts.of_sameKnown {form : Form} {json json' : Json} (h : form.Accepts json)
    (hsame : form.json.SameKnown json json') : form.Accepts json' := by
  induction form generalizing json json' with
  | text => cases hsame; exact h
  | int => cases hsame; exact h
  | bool => cases hsame; exact h
  | absent => cases hsame; exact h
  | bare name => cases hsame; exact h
  | list count item ih =>
    obtain ⟨given, rfl, hlength, hitems⟩ := h
    cases hsame with
    | same => exact ⟨given, rfl, hlength, hitems⟩
    | items hcount hvalues =>
      refine ⟨_, rfl, hcount ▸ hlength, fun index value' hvalue' => ?_⟩
      have hindex : index < given.length := hlength ▸ index.isLt
      have hvalue : given[index.val]? = some given[index.val] := List.getElem?_eq_getElem hindex
      exact ih index (hitems index _ hvalue) (hvalues index _ _ value' (by simp) hvalue hvalue')
  | alternative name hname payload ih =>
    obtain ⟨given, rfl, hpayload⟩ := h
    cases hsame with
    | same => exact ⟨given, rfl, hpayload⟩
    | alternative _ hgiven => exact ⟨_, rfl, ih hpayload hgiven⟩
    | record hrecord =>
      -- it is written as an alternative
      rw [Json.isAlternative, hname] at hrecord
      cases hrecord
  | record fields own part ih =>
    have hrecord := isAlternative_json_fields fields part
    rw [Form.json] at hsame
    generalize hwritten : (fields.names.map fun name => (name, (part name).json)) = written
      at hsame hrecord
    rcases h with ⟨given, rfl, hparts⟩ | ⟨hown, given, rfl, hlength, hparts⟩
    · cases hsame with
      | same => exact .inl ⟨given, rfl, hparts⟩
      | alternative hname =>
        -- its field is not named so
        rw [Json.isAlternative, hname] at hrecord
        cases hrecord
      | record _ hsame hvalues =>
        refine .inl ⟨_, rfl, fun name hname => ?_⟩
        have hfield : (name, (part name).json) ∈ written := hwritten ▸ mem_json_fields.mpr ⟨hname, rfl⟩
        have hthere := hsame name _ hfield
        refine ⟨fun value' hvalue' => ?_, fun hmissing => (hparts name hname).2 ?_⟩
        · rw [hvalue', Option.isSome_some] at hthere
          obtain ⟨value, hvalue⟩ := Option.isSome_iff_exists.mp hthere
          exact ih name ((hparts name hname).1 value hvalue)
            (hvalues name _ value value' hfield hvalue hvalue')
        · rwa [hmissing, Option.isSome_none, Option.isSome_eq_false_iff, Option.isNone_iff_eq_none]
            at hthere
    · cases hsame with
      | same => exact .inr ⟨hown, given, rfl, hlength, hparts⟩
      | sequence hcount hvalues =>
        refine .inr ⟨hown, _, rfl, hcount ▸ hlength, fun index name value' hname hvalue' => ?_⟩
        have hindex : index < given.length := hlength ▸ (List.getElem?_eq_some_iff.mp hname).1
        have hvalue : given[index]? = some given[index] := List.getElem?_eq_getElem hindex
        have hfield : written[index]? = some (name, (part name).json) := by
          rw [← hwritten, List.getElem?_map, hname]
          rfl
        exact ih name (hparts index name _ hname hvalue)
          (hvalues index _ _ value' hfield hvalue hvalue')

/-! ## Parts -/

/-- The form of an optional part. -/
def optional {α : Type} (form : α → Form) : Option α → Form
  | none => absent
  | some value => form value

/-- The form of a sequence. -/
def ofForms (forms : List Form) : Form :=
  list forms.length fun index => forms[index]

/-- The form of a sequence of values. -/
def listOf {α : Type} (form : α → Form) (values : List α) : Form :=
  ofForms (values.map form)

/-- A list of forms is written as a sequence. -/
@[simp] theorem json_ofForms (forms : List Form) : (ofForms forms).json = .array (forms.map json) := by
  have hitems : List.ofFn (fun index : Fin forms.length => forms[index].json) = forms.map json := by
    refine List.ext_getElem (by simp) fun index _ _ => ?_
    simp
  rw [ofForms, json, hitems]

/-- Listed values are written as a sequence. -/
@[simp] theorem json_listOf {α : Type} (form : α → Form) (values : List α) :
    (listOf form values).json = .array (values.map fun value => (form value).json) := by
  rw [listOf, json_ofForms, List.map_map]
  rfl

/-- A part that may be missing is written as the part or as null. -/
@[simp] theorem json_optional {α : Type} (form : α → Form) (value : Option α) :
    (optional form value).json = value.elim .null fun value => (form value).json := by
  cases value <;> rfl

/-- The parts of a record by their names. -/
def partsOf (names : List String) (forms : List Form) (name : String) : Form :=
  ((names.zip forms).lookup name).getD absent

/-- The record of these parts. -/
def recordOf (fields : FieldNames) (own : Bool) (forms : List Form) : Form :=
  record fields own (partsOf fields.names forms)

/-- The parts are the ones that were given, in order. -/
theorem map_partsOf {names : List String} (hnodup : names.Nodup) {forms : List Form}
    (hlength : forms.length = names.length) : names.map (partsOf names forms) = forms := by
  induction names generalizing forms with
  | nil => exact (List.eq_nil_of_length_eq_zero hlength).symm
  | cons first rest ih =>
    obtain ⟨hfirst, hrest⟩ := List.nodup_cons.mp hnodup
    cases forms with
    | nil => cases hlength
    | cons form forms =>
      have hothers : rest.map (partsOf (first :: rest) (form :: forms)) =
          rest.map (partsOf rest forms) := by
        refine List.map_congr_left fun name hname => ?_
        have hne : (name == first) = false := beq_eq_false_iff_ne.mpr fun h => hfirst (h ▸ hname)
        simp [partsOf, List.lookup_cons, hne]
      rw [List.map_cons, hothers, ih hrest (Nat.succ.inj hlength)]
      simp [partsOf]

/-- A record is written with its names in order. -/
theorem json_recordOf {fields : FieldNames} {own : Bool} {forms : List Form}
    (hlength : forms.length = fields.names.length) :
    (recordOf fields own forms).json = .object (fields.names.zip (forms.map json)) := by
  have hwritten : (fields.names.map fun name => (name, (partsOf fields.names forms name).json)) =
      fields.names.zip ((fields.names.map (partsOf fields.names forms)).map json) := by
    rw [List.map_map, ← List.map_prod_left_eq_zip]
    rfl
  rw [recordOf, json, hwritten, map_partsOf fields.nodup hlength]

/-- What may stand for a part of a record. Only an absent part may be missing. -/
def AcceptsPart (form : Form) : Option Json → Prop
  | some value => form.Accepts value
  | none => form = absent

/-- Null is accepted for absent parts only. -/
theorem eq_absent_of_accepts_null {form : Form} (h : form.Accepts .null) : form = absent := by
  cases form with
  | absent => rfl
  | text => cases h
  | int => cases h
  | bool => cases h
  | bare => rcases h with h | h <;> cases h
  | list => obtain ⟨_, h, -⟩ := h; cases h
  | alternative => obtain ⟨_, h, -⟩ := h; cases h
  | record => rcases h with ⟨_, h, -⟩ | ⟨-, _, h, -⟩ <;> cases h

/-- Lists are related item by item. -/
theorem forall₂_iff_getElem? {α β : Type} {r : α → β → Prop} {first : List α} {second : List β} :
    List.Forall₂ r first second ↔ second.length = first.length ∧
      ∀ (index : Nat) value value', first[index]? = some value → second[index]? = some value' →
        r value value' := by
  rw [List.forall₂_iff_get, eq_comm]
  refine and_congr_right fun hlength => ⟨fun h index value value' hvalue hvalue' => ?_, fun h => ?_⟩
  · obtain ⟨hindex, rfl⟩ := List.getElem?_eq_some_iff.mp hvalue
    obtain ⟨hindex', rfl⟩ := List.getElem?_eq_some_iff.mp hvalue'
    exact h index hindex hindex'
  · intro index hindex hindex'
    exact h index _ _ (List.getElem?_eq_getElem hindex) (List.getElem?_eq_getElem hindex')

/-- The fields of an object are accepted name by name. -/
theorem forall₂_acceptsPart_lookup {names : List String} {part : String → Form}
    {given : List (String × Json)} :
    List.Forall₂ (fun name value => (part name).AcceptsPart value) names
        (names.map fun name => given.lookup name) ↔
      ∀ name ∈ names, (∀ value, given.lookup name = some value → (part name).Accepts value) ∧
        (given.lookup name = none → part name = absent) := by
  rw [List.forall₂_map_right_iff, List.forall₂_same]
  refine forall₂_congr fun name _ => ?_
  cases given.lookup name <;> simp [AcceptsPart]

/-- The fields of an alternative are accepted name by name. -/
theorem accepts_fields_iff {fields : FieldNames} {part : String → Form} {json : Json} :
    (record fields false part).Accepts json ↔ ∃ given, json.fields? fields.names = some given ∧
      List.Forall₂ (fun name value => (part name).AcceptsPart value) fields.names given := by
  simp only [Accepts, Bool.false_eq_true, false_and, or_false, Json.fields?, Option.map_eq_some_iff]
  constructor
  · rintro ⟨given, rfl, hparts⟩
    exact ⟨_, ⟨given, rfl, rfl⟩, forall₂_acceptsPart_lookup.mpr hparts⟩
  · rintro ⟨_, ⟨given, hgiven, rfl⟩, hparts⟩
    cases json with
    | object =>
      cases hgiven
      exact ⟨given, rfl, forall₂_acceptsPart_lookup.mp hparts⟩
    | null | bool | int | decimal | string | array => cases hgiven

/-- A record of its own is accepted part by part. -/
theorem accepts_own_iff {fields : FieldNames} {part : String → Form} {json : Json} :
    (record fields true part).Accepts json ↔ ∃ given, json.record? fields.names = some given ∧
      List.Forall₂ (fun name value => (part name).AcceptsPart value) fields.names given := by
  have hobject (h : ∀ items, json ≠ .array items) :
      (record fields true part).Accepts json ↔ (record fields false part).Accepts json := by
    simp only [Accepts]
    refine or_congr_right ⟨fun ⟨_, items, hitems, _⟩ => absurd hitems (h items), nofun⟩
  cases json with
  | array items =>
    have hitems : (record fields true part).Accepts (.array items) ↔
        items.length = fields.names.length ∧ ∀ (index : Nat) name value,
          fields.names[index]? = some name → items[index]? = some value →
            (part name).Accepts value := by
      simp [Accepts]
    rw [hitems, ← forall₂_iff_getElem?, Json.record?]
    split
    · simp only [Option.some.injEq, exists_eq_left', List.forall₂_map_right_iff, AcceptsPart]
    · rename_i hlength
      simp only [reduceCtorEq, false_and, exists_false, iff_false]
      exact fun hparts => hlength hparts.length_eq.symm
  | null | bool | int | decimal | string | object =>
    rw [hobject nofun, accepts_fields_iff]
    rfl

/-- The parts of a record are accepted one by one. -/
theorem forall₂_partsOf_iff {names : List String} (hnodup : names.Nodup) {forms : List Form}
    (hlength : forms.length = names.length) {given : List (Option Json)} :
    List.Forall₂ (fun name part => (partsOf names forms name).AcceptsPart part) names given ↔
      List.Forall₂ AcceptsPart forms given := by
  have hparts := List.forall₂_map_left_iff (R := AcceptsPart) (f := partsOf names forms) (l := names)
    (u := given)
  rw [map_partsOf hnodup hlength] at hparts
  exact hparts.symm

/-! ## Readers -/

/-- A reader reads from values that nest so deeply what is accepted by the forms of its results. -/
structure Reads {α : Type} (bound : Nat) (read : Json → Option α) (form : α → Form) : Prop where
  /-- What is read is what is accepted. -/
  iff {json : Json} {value : α} (h : json.depth ≤ bound) :
    read json = some value ↔ (form value).Accepts json
  /-- Nothing is read from null. -/
  null : read .null = none
  /-- Values are there. -/
  present (value : α) : form value ≠ absent

variable {α β : Type} {bound : Nat} {read : Json → Option α} {form : α → Form} {part : Option Json}

/-- A part is read as it is accepted. -/
theorem Reads.bind_iff (h : Reads bound read form) (hpart : Json.Within bound part)
    {rest : α → Option β} {result : β} :
    (part.bind fun json => (read json).bind rest) = some result ↔
      ∃ value, (form value).AcceptsPart part ∧ rest value = some result := by
  cases part with
  | none => simp [AcceptsPart, h.present]
  | some json =>
    simp only [Option.bind_some, Option.bind_eq_some_iff, AcceptsPart, h.iff (hpart json rfl)]

/-- An optional part is read as it is accepted. -/
theorem Reads.optional_iff (h : Reads bound read form)
    (hpart : Json.Within bound part) {value : Option α} :
    Json.optional? read part = some value ↔ (optional form value).AcceptsPart part := by
  rcases part with - | json
  · cases value <;> simp [Json.optional?, optional, AcceptsPart, h.present]
  · by_cases hnull : json = .null
    · subst hnull
      cases value with
      | none => simp [Json.optional?, optional, AcceptsPart, Accepts]
      | some value =>
        have hnot : ¬(form value).Accepts .null := fun haccepts =>
          h.present value (eq_absent_of_accepts_null haccepts)
        simp [Json.optional?, optional, AcceptsPart, hnot]
    · have hread : Json.optional? read (some json) = (read json).map some := by
        cases json <;> first | rfl | exact absurd rfl hnull
      rw [hread]
      cases value with
      | none => simp [optional, AcceptsPart, Accepts, hnull]
      | some value => simp [optional, AcceptsPart, h.iff (hpart json rfl)]

/-- What is read after an optional part. -/
theorem Reads.optional_bind_iff (h : Reads bound read form)
    (hpart : Json.Within bound part) {rest : Option α → Option β} {result : β} :
    (Json.optional? read part).bind rest = some result ↔
      ∃ value, (optional form value).AcceptsPart part ∧ rest value = some result := by
  simp only [Option.bind_eq_some_iff, h.optional_iff hpart]

/-- Items are read one by one. -/
theorem mapM_eq_some_iff {items : List Json} {values : List α} :
    items.mapM read = some values ↔
      List.Forall₂ (fun item value => read item = some value) items values := by
  induction items generalizing values with
  | nil => simp [eq_comm]
  | cons item rest ih =>
    rw [List.mapM_cons, List.forall₂_cons_left_iff]
    simp only [Option.bind_eq_bind, Option.pure_def, Option.bind_eq_some_iff, ih, Option.some.injEq,
      exists_and_left, @eq_comm _ values]

/-- A sequence is accepted item by item. -/
theorem accepts_ofForms_iff {forms : List Form} {items : List Json} :
    (ofForms forms).Accepts (.array items) ↔ List.Forall₂ Accepts forms items := by
  rw [forall₂_iff_getElem?]
  simp only [ofForms, Accepts, Json.array.injEq, exists_eq_left']
  refine and_congr_right fun hlength => ⟨fun h index form item hform hitem => ?_, fun h => ?_⟩
  · obtain ⟨hindex, rfl⟩ := List.getElem?_eq_some_iff.mp hform
    exact h ⟨index, hindex⟩ item hitem
  · intro index item hitem
    exact h index _ item (List.getElem?_eq_getElem index.isLt) hitem

/-- A sequence is read as it is accepted. -/
theorem Reads.asListOf? (h : Reads bound read form) :
    Reads bound (Json.asListOf? read) (listOf form) where
  iff {json values} hdepth := by
    cases json with
    | array items =>
      have hitems (index : Nat) (item : Json) (hitem : items[index]? = some item) :
          item.depth ≤ bound := by
        have hbelow := Json.depth_le_itemsDepth (List.mem_of_getElem? hitem)
        rw [Json.depth] at hdepth
        omega
      rw [listOf, accepts_ofForms_iff, List.forall₂_map_left_iff]
      change items.mapM read = some values ↔ _
      rw [mapM_eq_some_iff, forall₂_iff_getElem?, forall₂_iff_getElem?, eq_comm]
      refine and_congr_right fun _ => ⟨fun hread => ?_, fun hread => ?_⟩
      · intro index value item hvalue hitem
        exact (h.iff (hitems index item hitem)).mp (hread index item value hitem hvalue)
      · intro index item value hitem hvalue
        exact (h.iff (hitems index item hitem)).mpr (hread index value item hvalue hitem)
    | null | bool | int | decimal | string | object =>
      simp [Json.asListOf?, Json.asArray?, listOf, ofForms, Accepts]
  null := rfl
  present := nofun

/-- The readers of texts. -/
theorem reads_asString? (bound : Nat) : Reads bound Json.asString? text where
  iff {json value} _ := by cases json <;> simp [Json.asString?, Accepts]
  null := rfl
  present := nofun

/-- The readers of truth values. -/
theorem reads_asBool? (bound : Nat) : Reads bound Json.asBool? bool where
  iff {json value} _ := by cases json <;> simp [Json.asBool?, Accepts]
  null := rfl
  present := nofun

/-- The reader of signed integers. -/
theorem reads_asInt64? (bound : Nat) : Reads bound Json.asInt64? fun value => int value.toInt where
  iff {json value} _ := by
    cases json with
    | int n =>
      simp only [Json.asInt64?, Json.asInt?, Option.bind_some, Accepts, Json.int.injEq]
      constructor
      · intro h
        split at h
        · rename_i hrange
          cases h
          exact (Int64.toInt_ofInt_of_le hrange.1 (Int.lt_of_le_of_lt hrange.2 (by decide))).symm
        · cases h
      · rintro rfl
        rw [if_pos ⟨value.le_toInt, Int.le_of_lt_add_one value.toInt_lt⟩, Int64.ofInt_toInt]
    | null | bool | decimal | string | array | object => simp [Json.asInt64?, Json.asInt?, Accepts]
  null := rfl
  present := nofun

/-- The reader of unsigned integers. -/
theorem reads_asUInt64? (bound : Nat) : Reads bound Json.asUInt64? fun value => int value.toNat where
  iff {json value} _ := by
    cases json with
    | int n =>
      simp only [Json.asUInt64?, Json.asSize?, Json.asInt?, Option.bind_some, Accepts, Json.int.injEq]
      constructor
      · intro h
        split at h
        · rename_i hrange
          cases h
          have hlt : n.toNat < UInt64.size := by rw [UInt64.size]; omega
          rw [UInt64.toNat_ofNat_of_lt' hlt, Int.toNat_of_nonneg hrange.1]
        · cases h
      · rintro rfl
        have hlt := value.toNat_lt
        rw [if_pos ⟨by omega, by omega⟩]
        simp
    | null | bool | decimal | string | array | object =>
      simp [Json.asUInt64?, Json.asSize?, Json.asInt?, Accepts]
  null := rfl
  present := nofun

/-- Nothing nests so little. -/
theorem Reads.zero (hread : ∀ json, read json = none) (hpresent : ∀ value, form value ≠ absent) :
    Reads 0 read form where
  iff {json _} hdepth := absurd hdepth (Nat.not_le_of_lt json.depth_pos)
  null := hread .null
  present := hpresent

/-- From values that nest less deeply the same is read. -/
theorem Reads.mono (h : Reads bound read form) {less : Nat} (hless : less ≤ bound) :
    Reads less read form where
  iff hdepth := h.iff (hdepth.trans hless)
  null := h.null
  present := h.present

/-- If it is enough to bound the depth by that of the value, it need not be bounded. -/
theorem Reads.ofDepth {read : Nat → Json → Option α} (h : ∀ depth, Reads depth (read depth) form) :
    Reads bound (fun json => read json.depth json) form where
  iff {json _} _ := (h json.depth).iff le_rfl
  null := (h _).null
  present := (h 0).present

/-- A record of its own is read if its parts are. -/
theorem Reads.own {choose : List (Option Json) → Option α} (fields : FieldNames)
    {forms : α → List Form} (hlength : ∀ value, (forms value).length = fields.names.length)
    (hread : ∀ json, read json = (json.record? fields.names).bind choose)
    (hparts : ∀ given value, given.length = fields.names.length →
      (∀ part ∈ given, Json.Within bound part) →
      (choose given = some value ↔ List.Forall₂ AcceptsPart (forms value) given)) :
    Reads (bound + 1) read fun value => recordOf fields true (forms value) where
  iff {json value} hdepth := by
    rw [hread, recordOf, accepts_own_iff, Option.bind_eq_some_iff]
    refine exists_congr fun given => and_congr_right fun hgiven => ?_
    rw [forall₂_partsOf_iff fields.nodup (hlength value)]
    exact hparts given value (Json.length_of_record? hgiven) (Json.within_of_record? hgiven hdepth)
  null := by rw [hread]; rfl
  present := nofun

/-! ## Alternatives -/

/-- The form of an alternative that is written as its name. -/
def named (json : Json) : Form :=
  match json with
  | .string name => bare name
  | _ => absent

/-- A bare name is accepted where it is the variant, with nothing in it. -/
theorem accepts_bare_iff {name : String} {json : Json} :
    (bare name).Accepts json ↔ json.variant? = some (name, .null) := by
  constructor
  · rintro (rfl | rfl) <;> rfl
  · intro h
    rcases Json.variant?_cases h with rfl | ⟨rfl, -⟩
    · exact .inr rfl
    · exact .inl rfl

/-- An alternative is accepted with what it carries. A bare name carries null, and that is accepted for
nothing that is there. -/
theorem accepts_alternative {name : String} {hname : Json.isCapital name = true} {payload : Form}
    {json given : Json} (hvariant : json.variant? = some (name, given)) (hpresent : payload ≠ absent)
    (h : payload.Accepts given) : (alternative name hname payload).Accepts json := by
  rcases Json.variant?_cases hvariant with rfl | ⟨-, rfl⟩
  · exact ⟨given, rfl, h⟩
  · exact absurd (eq_absent_of_accepts_null h) hpresent

/-- An alternative is accepted where it is the variant, with what it carries in it. -/
theorem accepts_alternative_iff {name : String} {hname : Json.isCapital name = true} {payload : Form}
    (hpresent : payload ≠ absent) {json : Json} :
    (alternative name hname payload).Accepts json ↔
      ∃ given, json.variant? = some (name, given) ∧ payload.Accepts given := by
  constructor
  · rintro ⟨given, rfl, hgiven⟩
    exact ⟨given, rfl, hgiven⟩
  · rintro ⟨given, hvariant, hgiven⟩
    exact accepts_alternative hvariant hpresent hgiven

/-- What an alternative carries is read as it is accepted. A bare name carries null, from which nothing
is read. -/
theorem Reads.payload_iff (h : Reads bound read form) {json given : Json} {name : String}
    (hvariant : json.variant? = some (name, given)) (hdepth : json.depth ≤ bound + 1) {value : α} :
    read given = some value ↔ (form value).Accepts given := by
  rcases Json.variant?_cases hvariant with rfl | ⟨-, rfl⟩
  · refine h.iff ?_
    simp only [Json.depth, Json.fieldsDepth] at hdepth
    omega
  · rw [h.null]
    exact iff_of_false nofun fun haccepts => h.present value (eq_absent_of_accepts_null haccepts)

/-- The fields of an alternative are read as they are accepted. -/
theorem fields_bind_iff {choose : List (Option Json) → Option β} (fields : FieldNames)
    {forms : List Form} {json given : Json} {name : String}
    (hvariant : json.variant? = some (name, given)) (hdepth : json.depth ≤ bound + 1)
    (hlength : forms.length = fields.names.length) {result : β}
    (hparts : ∀ parts, parts.length = fields.names.length → (∀ part ∈ parts, Json.Within bound part) →
      (choose parts = some result ↔ List.Forall₂ AcceptsPart forms parts)) :
    (given.fields? fields.names).bind choose = some result ↔
      (recordOf fields false forms).Accepts given := by
  have hgiven : given.depth ≤ bound + 1 := by
    rcases Json.variant?_cases hvariant with rfl | ⟨rfl, rfl⟩
    · simp only [Json.depth, Json.fieldsDepth] at hdepth
      omega
    · exact Nat.le_add_left 1 bound
  rw [recordOf, accepts_fields_iff, Option.bind_eq_some_iff]
  refine exists_congr fun parts => and_congr_right fun hfields => ?_
  rw [forall₂_partsOf_iff fields.nodup hlength]
  exact hparts parts (Json.length_of_fields? hfields) (Json.within_of_fields? hfields hgiven)

/-- What holds of a result whatever was read before it. -/
theorem of_bind_eq_some {part : Option α} {rest : α → Option β} {result : β} {p : Prop}
    (h : part.bind rest = some result) (hrest : ∀ value, rest value = some result → p) : p := by
  obtain ⟨value, -, hresult⟩ := Option.bind_eq_some_iff.mp h
  exact hrest value hresult

/-- An alternative is read by what it carries. -/
theorem read_alternative_iff {name : String} {hcapital : Json.isCapital name = true} {payload : Form}
    {json : Json} {value : α} (hpresent : payload ≠ absent)
    (hname : read json = some value → ∃ given, json.variant? = some (name, given))
    (hpayload : ∀ given, json.variant? = some (name, given) →
      (read json = some value ↔ payload.Accepts given)) :
    read json = some value ↔ (alternative name hcapital payload).Accepts json := by
  rw [accepts_alternative_iff hpresent]
  constructor
  · intro hread
    obtain ⟨given, hvariant⟩ := hname hread
    exact ⟨given, hvariant, (hpayload given hvariant).mp hread⟩
  · rintro ⟨given, hvariant, hgiven⟩
    exact (hpayload given hvariant).mpr hgiven

end Form

end MacroExpansion
