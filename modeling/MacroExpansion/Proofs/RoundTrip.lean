import MacroExpansion.Diagnostic.Record
import MacroExpansion.Fragment
import MacroExpansion.Proofs.TreeForms
import MacroExpansion.Symbol.Codec
import MacroExpansion.Walk.Trace

/-! # Values are read as they were written

Declarations, files, fragments, steps and diagnostics have forms as well. So of all of them the same
holds (`Serializes`): what is written is read back; what is read differs from what is written for it
only in fields that are left out or missing and in the two other forms, sequences for records and
objects for bare names; and the order of fields and unknown fields do not matter.

Without the other forms this would be false (`sequences_and_null_are_read`). -/

namespace MacroExpansion

open Form

/-! ## Writing and reading -/

/-- The order of fields can be turned back. -/
theorem Json.Rearranged.symm {first second : Json} (h : first.Rearranged second) :
    second.Rearranged first := by
  induction h with
  | same json => exact .same json
  | items hlength _ ih =>
    exact .items hlength.symm fun index item item' hitem hitem' => ih index item' item hitem' hitem
  | fields hnodup hkeys _ ih =>
    exact .fields (hkeys.nodup_iff.mp hnodup) hkeys.symm fun name value value' hvalue hvalue' =>
      ih name value' value hvalue' hvalue

/-- A type whose values are written as JSON and read back. -/
structure Serializes {α : Type} (toJson : α → Json) (ofJson? : Json → Option α) : Prop where
  /-- What is written is read back. -/
  back (value : α) : ofJson? (toJson value) = some value
  /-- What is read differs from what is written for it in the listed ways. -/
  differs {json : Json} {value : α} (h : ofJson? json = some value) :
    json.Differs True (toJson value)
  /-- The order of fields does not matter. -/
  rearranged {json json' : Json} (h : json.Rearranged json') : ofJson? json' = ofJson? json
  /-- Fields that are not written do not matter. -/
  known {json json' : Json} {value : α} (h : ofJson? json = some value)
    (hsame : (toJson value).SameKnown json json') : ofJson? json' = some value

/-- It is enough to read what forms accept. -/
theorem Serializes.of_reads {α : Type} {toJson : α → Json} {ofJson? : Json → Option α} {form : α → Form}
    (hreads : ∀ bound, Reads bound ofJson? form) (hjson : ∀ value, (form value).json = toJson value) :
    Serializes toJson ofJson? := by
  have hiff (json : Json) (value : α) : ofJson? json = some value ↔ (form value).Accepts json :=
    (hreads json.depth).iff le_rfl
  refine ⟨fun value => ?_, fun {json value} h => ?_, fun {json json'} h => ?_,
    fun {json json' value} h hsame => ?_⟩
  · rw [hiff, ← hjson]
    exact (form value).accepts_json
  · rw [← hjson]
    exact ((hiff json value).mp h).differs
  · refine Option.ext fun value => ?_
    rw [hiff, hiff]
    exact ⟨fun h' => h'.of_rearranged h.symm, fun h' => h'.of_rearranged h⟩
  · rw [hiff] at h ⊢
    exact h.of_sameKnown (hjson value ▸ hsame)

/-- What is read as an alternative that carries one value is accepted as such. -/
theorem accepts_of_map {α β : Type} {read : Json → Option α} {form : α → Form} {make : α → β}
    (hreads : ∀ bound, Reads bound read form) {json given : Json} {name : String}
    {hname : Json.isCapital name = true} (hvariant : json.variant? = some (name, given)) {value : β}
    (h : (read given).map make = some value) :
    ∃ inner, make inner = value ∧ (alternative name hname (form inner)).Accepts json := by
  obtain ⟨inner, hinner, rfl⟩ := Option.map_eq_some_iff.mp h
  have haccepts := ((hreads given.depth).iff le_rfl).mp hinner
  exact ⟨inner, rfl, accepts_alternative hvariant ((hreads 0).present inner) haccepts⟩

/-- What is accepted by the form of a value is read as the alternative that carries the value. -/
theorem map_of_accepts {α β : Type} {read : Json → Option α} {form : α → Form} {make : α → β}
    (hreads : ∀ bound, Reads bound read form) {given : Json} {inner : α}
    (h : (form inner).Accepts given) : (read given).map make = some (make inner) := by
  rw [((hreads given.depth).iff le_rfl).mpr h]
  rfl

/-! ## Nodes -/

/-- Expressions are read as they are accepted, however deeply they nest. -/
theorem Expr.reads (bound : Nat) : Reads bound Expr.ofJson? Expr.form :=
  .ofDepth fun bound => (nodesRead bound).expr

/-- Calls are read as they are accepted, however deeply they nest. -/
theorem Call.reads (bound : Nat) : Reads bound Call.ofJson? Call.form :=
  .ofDepth fun bound => (nodesRead bound).call

/-- Lambdas are read as they are accepted, however deeply they nest. -/
theorem Lambda.reads (bound : Nat) : Reads bound Lambda.ofJson? Lambda.form :=
  .ofDepth fun bound => (nodesRead bound).lambda

/-- Parameters are read as they are accepted, however deeply their defaults nest. -/
theorem Param.reads (bound : Nat) : Reads bound Param.ofJson? Param.form :=
  .ofDepth fun bound => (nodesRead bound).param

/-- Statements are read as they are accepted, however deeply they nest. -/
theorem Stmt.reads (bound : Nat) : Reads bound Stmt.ofJson? Stmt.form :=
  .ofDepth fun bound => (nodesRead bound).stmt

/-- Blocks are read as they are accepted, however deeply they nest. -/
theorem Block.reads (bound : Nat) : Reads bound Block.ofJson? Block.form :=
  .ofDepth fun bound => (nodesRead bound).block

/-! ## Declarations and files -/

namespace FunctionDecl

/-- The fields of a function declaration. -/
def fields : FieldNames where
  names := ["name", "is_static", "type_params", "params", "return_type", "body", "attributes", "span"]

/-- The form of a function declaration. -/
def form (decl : FunctionDecl) : Form :=
  recordOf fields true [.text decl.name, .bool decl.isStatic, listOf .text decl.typeParams,
    listOf Param.form decl.params, decl.returnType.form, decl.body.form,
    listOf .text decl.attributes, decl.span.form]

/-- The form of a function declaration is written as the declaration is. -/
theorem json_form (decl : FunctionDecl) : decl.form.json = decl.toJson := by
  simp [form, toJson, Form.json, json_recordOf, fields, Param.json_form, TypeRef.json_form,
    Block.json_form, Span.json_form]

/-- Function declarations are read as they are accepted. -/
theorem reads (bound : Nat) : Reads bound ofJson? form := by
  refine .mono (.own fields (fun _ => rfl) (fun _ => rfl) fun given decl hlength hwithin => ?_)
    bound.le_succ
  rcases given with _ | ⟨name, _ | ⟨isStatic, _ | ⟨typeParams, _ | ⟨params, _ | ⟨returnType, _ | ⟨body,
    _ | ⟨attributes, _ | ⟨span, _ | _⟩⟩⟩⟩⟩⟩⟩⟩ <;> cases hlength
  simp only [List.forall_mem_cons] at hwithin
  obtain ⟨hname, hisStatic, htypeParams, hparams, hreturnType, hbody, hattributes, hspan, -⟩ := hwithin
  have htexts := reads_asString? bound
  -- part by part: there are too many of them to simplify at once
  constructor
  · intro h
    obtain ⟨_, hname, h⟩ := (htexts.bind_iff hname).mp h
    obtain ⟨_, hisStatic, h⟩ := ((reads_asBool? bound).bind_iff hisStatic).mp h
    obtain ⟨_, htypeParams, h⟩ := (htexts.asListOf?.bind_iff htypeParams).mp h
    obtain ⟨_, hparams, h⟩ := ((Param.reads bound).asListOf?.bind_iff hparams).mp h
    obtain ⟨_, hreturnType, h⟩ := ((TypeRef.reads bound).bind_iff hreturnType).mp h
    obtain ⟨_, hbody, h⟩ := ((Block.reads bound).bind_iff hbody).mp h
    obtain ⟨_, hattributes, h⟩ := (htexts.asListOf?.bind_iff hattributes).mp h
    obtain ⟨_, hspan, h⟩ := ((Span.reads bound).bind_iff hspan).mp h
    cases h
    simp only [List.forall₂_cons]
    exact ⟨hname, hisStatic, htypeParams, hparams, hreturnType, hbody, hattributes, hspan, .nil⟩
  · simp only [List.forall₂_cons]
    rintro ⟨hname', hisStatic', htypeParams', hparams', hreturnType', hbody', hattributes', hspan', -⟩
    refine (htexts.bind_iff hname).mpr ⟨_, hname', ?_⟩
    refine ((reads_asBool? bound).bind_iff hisStatic).mpr ⟨_, hisStatic', ?_⟩
    refine (htexts.asListOf?.bind_iff htypeParams).mpr ⟨_, htypeParams', ?_⟩
    refine ((Param.reads bound).asListOf?.bind_iff hparams).mpr ⟨_, hparams', ?_⟩
    refine ((TypeRef.reads bound).bind_iff hreturnType).mpr ⟨_, hreturnType', ?_⟩
    refine ((Block.reads bound).bind_iff hbody).mpr ⟨_, hbody', ?_⟩
    refine (htexts.asListOf?.bind_iff hattributes).mpr ⟨_, hattributes', ?_⟩
    exact ((Span.reads bound).bind_iff hspan).mpr ⟨_, hspan', rfl⟩

end FunctionDecl

namespace AccessorKind

/-- The form of an accessor kind. -/
def form (kind : AccessorKind) : Form :=
  Form.named kind.toJson

/-- The form of a kind of accessors is written as the kind is. -/
theorem json_form (kind : AccessorKind) : kind.form.json = kind.toJson := by
  cases kind <;> rfl

/-- Kinds of accessors are read as they are accepted, from a bare name or from an object. -/
theorem reads (bound : Nat) : Reads bound ofJson? form where
  iff {json kind} _ := by
    refine ⟨fun h => ?_, fun h => ?_⟩
    · unfold ofJson? at h
      split at h <;> cases h <;> exact accepts_bare_iff.mpr ‹_›
    · cases kind <;> rcases h with rfl | rfl <;> rfl
  null := rfl
  present kind := by cases kind <;> nofun

end AccessorKind

namespace Accessor

/-- The fields of an accessor. -/
def fields : FieldNames where
  names := ["kind", "body", "span"]

/-- The form of an accessor. -/
def form (accessor : Accessor) : Form :=
  recordOf fields true [accessor.kind.form, accessor.body.form, accessor.span.form]

/-- The form of an accessor is written as the accessor is. -/
theorem json_form (accessor : Accessor) : accessor.form.json = accessor.toJson := by
  simp [form, toJson, json_recordOf, fields, AccessorKind.json_form, Block.json_form, Span.json_form]

/-- Accessors are read as they are accepted. -/
theorem reads (bound : Nat) : Reads bound ofJson? form := by
  refine .mono (.own fields (fun _ => rfl) (fun _ => rfl) fun given accessor hlength hwithin => ?_)
    bound.le_succ
  rcases given with _ | ⟨kind, _ | ⟨body, _ | ⟨span, _ | _⟩⟩⟩ <;> cases hlength
  simp only [List.forall_mem_cons] at hwithin
  obtain ⟨hkind, hbody, hspan, -⟩ := hwithin
  cases accessor
  simp [(AccessorKind.reads bound).bind_iff hkind, (Block.reads bound).bind_iff hbody,
    (Span.reads bound).bind_iff hspan]

end Accessor

namespace PropertyDecl

/-- The fields of a property. -/
def fields : FieldNames where
  names := ["name", "ty", "accessors", "span"]

/-- The form of a property. -/
def form (decl : PropertyDecl) : Form :=
  recordOf fields true
    [text decl.name, decl.type.form, listOf Accessor.form decl.accessors, decl.span.form]

/-- The form of a property is written as the property is. -/
theorem json_form (decl : PropertyDecl) : decl.form.json = decl.toJson := by
  simp [form, toJson, Form.json, json_recordOf, fields, Accessor.json_form, TypeRef.json_form,
    Span.json_form]

/-- Properties are read as they are accepted. -/
theorem reads (bound : Nat) : Reads bound ofJson? form := by
  refine .mono (.own fields (fun _ => rfl) (fun _ => rfl) fun given decl hlength hwithin => ?_)
    bound.le_succ
  rcases given with _ | ⟨name, _ | ⟨type, _ | ⟨accessors, _ | ⟨span, _ | _⟩⟩⟩⟩ <;> cases hlength
  simp only [List.forall_mem_cons] at hwithin
  obtain ⟨hname, htype, haccessors, hspan, -⟩ := hwithin
  cases decl
  simp [(reads_asString? bound).bind_iff hname, (TypeRef.reads bound).bind_iff htype,
    (Accessor.reads bound).asListOf?.bind_iff haccessors, (Span.reads bound).bind_iff hspan]

end PropertyDecl

namespace Member

/-- The form of a member. -/
def form : Member → Form
  | .function decl => .alternative "Function" (by decide) decl.form
  | .property decl => .alternative "Property" (by decide) decl.form

/-- The form of a member is written as the member is. -/
theorem json_form (member : Member) : member.form.json = member.toJson := by
  cases member <;> simp [form, toJson, Form.json, FunctionDecl.json_form, PropertyDecl.json_form]

/-- Members are read as they are accepted, each kind under its own name. -/
theorem reads (bound : Nat) : Reads bound ofJson? form where
  iff {json member} _ := by
    refine ⟨fun h => ?_, fun h => ?_⟩
    · unfold ofJson? at h
      split at h
      · obtain ⟨decl, rfl, haccepts⟩ := accepts_of_map FunctionDecl.reads ‹_› h
        exact haccepts
      · obtain ⟨decl, rfl, haccepts⟩ := accepts_of_map PropertyDecl.reads ‹_› h
        exact haccepts
      · cases h
    · cases member with
      | function decl =>
        obtain ⟨given, rfl, hgiven⟩ := h
        exact map_of_accepts FunctionDecl.reads hgiven
      | property decl =>
        obtain ⟨given, rfl, hgiven⟩ := h
        exact map_of_accepts PropertyDecl.reads hgiven
  null := rfl
  present member := by cases member <;> nofun

end Member

namespace TypeDecl

/-- The fields of a type declaration. -/
def fields : FieldNames where
  names := ["name", "members", "span"]

/-- The form of a type declaration. -/
def form (decl : TypeDecl) : Form :=
  recordOf fields true [text decl.name, listOf Member.form decl.members, decl.span.form]

/-- The form of a type declaration is written as the declaration is. -/
theorem json_form (decl : TypeDecl) : decl.form.json = decl.toJson := by
  simp [form, toJson, Form.json, json_recordOf, fields, Member.json_form, Span.json_form]

/-- Type declarations are read as they are accepted. -/
theorem reads (bound : Nat) : Reads bound ofJson? form := by
  refine .mono (.own fields (fun _ => rfl) (fun _ => rfl) fun given decl hlength hwithin => ?_)
    bound.le_succ
  rcases given with _ | ⟨name, _ | ⟨members, _ | ⟨span, _ | _⟩⟩⟩ <;> cases hlength
  simp only [List.forall_mem_cons] at hwithin
  obtain ⟨hname, hmembers, hspan, -⟩ := hwithin
  cases decl
  simp [(reads_asString? bound).bind_iff hname, (Member.reads bound).asListOf?.bind_iff hmembers,
    (Span.reads bound).bind_iff hspan]

end TypeDecl

namespace Item

/-- The form of an item. -/
def form : Item → Form
  | .typeDecl decl => .alternative "Type" (by decide) decl.form
  | .function decl => .alternative "Function" (by decide) decl.form
  | .statements block => .alternative "Statements" (by decide) block.form

/-- The form of an item is written as the item is. -/
theorem json_form (item : Item) : item.form.json = item.toJson := by
  cases item <;>
    simp [form, toJson, Form.json, TypeDecl.json_form, FunctionDecl.json_form, Block.json_form]

/-- Items are read as they are accepted, each kind under its own name. -/
theorem reads (bound : Nat) : Reads bound ofJson? form where
  iff {json item} _ := by
    refine ⟨fun h => ?_, fun h => ?_⟩
    · unfold ofJson? at h
      split at h
      · obtain ⟨decl, rfl, haccepts⟩ := accepts_of_map TypeDecl.reads ‹_› h
        exact haccepts
      · obtain ⟨decl, rfl, haccepts⟩ := accepts_of_map FunctionDecl.reads ‹_› h
        exact haccepts
      · obtain ⟨block, rfl, haccepts⟩ := accepts_of_map Block.reads ‹_› h
        exact haccepts
      · cases h
    · cases item with
      | typeDecl decl =>
        obtain ⟨given, rfl, hgiven⟩ := h
        exact map_of_accepts TypeDecl.reads hgiven
      | function decl =>
        obtain ⟨given, rfl, hgiven⟩ := h
        exact map_of_accepts FunctionDecl.reads hgiven
      | statements block =>
        obtain ⟨given, rfl, hgiven⟩ := h
        exact map_of_accepts Block.reads hgiven
  null := rfl
  present item := by cases item <;> nofun

end Item

namespace SyntaxTree

/-- The fields of a file. -/
def fields : FieldNames where
  names := ["path", "source", "items"]

/-- The form of a file. -/
def form (tree : SyntaxTree) : Form :=
  recordOf fields true
    [text tree.path, Form.optional text tree.source, listOf Item.form tree.items]

/-- The form of a file is written as the file is. -/
theorem json_form (tree : SyntaxTree) : tree.form.json = tree.toJson := by
  obtain ⟨path, source, items⟩ := tree
  cases source <;> simp [form, toJson, Form.json, json_recordOf, fields, Item.json_form]

/-- Files are read as they are accepted. -/
theorem reads (bound : Nat) : Reads bound ofJson? form := by
  refine .mono (.own fields (fun _ => rfl) (fun _ => rfl) fun given tree hlength hwithin => ?_)
    bound.le_succ
  rcases given with _ | ⟨path, _ | ⟨source, _ | ⟨items, _ | _⟩⟩⟩ <;> cases hlength
  simp only [List.forall_mem_cons] at hwithin
  obtain ⟨hpath, hsource, hitems, -⟩ := hwithin
  cases tree
  simp [(reads_asString? bound).bind_iff hpath, (reads_asString? bound).optional_bind_iff hsource,
    (Item.reads bound).asListOf?.bind_iff hitems]

end SyntaxTree

/-! ## Markers, fragments and steps -/

namespace Marker

/-- The form of a marker. -/
def form : Marker → Form
  | .macroFunction => bare "Macro"
  | .quoteParameter => bare "QuoteParameter"
  | .other name => .alternative "Other" (by decide) (text name)

/-- The form of a marker is written as the marker is. -/
theorem json_form (marker : Marker) : marker.form.json = marker.toJson := by
  cases marker <;> rfl

/-- Markers are read as they are accepted, with or without a name that they carry. -/
theorem reads (bound : Nat) : Reads bound ofJson? form where
  iff {json marker} _ := by
    refine ⟨fun h => ?_, fun h => ?_⟩
    · unfold ofJson? at h
      split at h
      · cases h
        exact accepts_bare_iff.mpr ‹_›
      · cases h
        exact accepts_bare_iff.mpr ‹_›
      · cases h
        exact accepts_alternative ‹_› nofun rfl
      · cases h
    · cases marker with
      | macroFunction | quoteParameter => rcases h with rfl | rfl <;> rfl
      | other name =>
        obtain ⟨_, rfl, rfl⟩ := h
        rfl
  null := rfl
  present marker := by cases marker <;> nofun

end Marker

namespace Fragment

/-- The name of this alternative is written with a capital, as the names of alternatives are. -/
theorem isCapital_expr : Json.isCapital "Expr" = true := by
  decide

/-- The form of a fragment. -/
def form : Fragment → Form
  | .expr e => .alternative "Expr" isCapital_expr e.form
  | .stmt s => .alternative "Stmt" (by decide) s.form
  | .function decl => .alternative "Function" (by decide) decl.form

/-- The form of a fragment is written as the fragment is. -/
theorem json_form (fragment : Fragment) : fragment.form.json = fragment.toJson := by
  cases fragment <;>
    simp [form, toJson, Form.json, Expr.json_form, Stmt.json_form, FunctionDecl.json_form]

/-- Fragments are read as they are accepted, each kind under its own name. -/
theorem reads (bound : Nat) : Reads bound ofJson? form where
  iff {json fragment} _ := by
    refine ⟨fun h => ?_, fun h => ?_⟩
    · unfold ofJson? at h
      split at h
      · obtain ⟨e, rfl, haccepts⟩ := accepts_of_map Expr.reads ‹_› h
        exact haccepts
      · obtain ⟨s, rfl, haccepts⟩ := accepts_of_map Stmt.reads ‹_› h
        exact haccepts
      · obtain ⟨decl, rfl, haccepts⟩ := accepts_of_map FunctionDecl.reads ‹_› h
        exact haccepts
      · cases h
    · cases fragment with
      | expr e =>
        obtain ⟨given, rfl, hgiven⟩ := h
        exact map_of_accepts Expr.reads hgiven
      | stmt s =>
        obtain ⟨given, rfl, hgiven⟩ := h
        exact map_of_accepts Stmt.reads hgiven
      | function decl =>
        obtain ⟨given, rfl, hgiven⟩ := h
        exact map_of_accepts FunctionDecl.reads hgiven
  null := rfl
  present fragment := by cases fragment <;> nofun

end Fragment

namespace SpliceKind

/-- The form of a kind. -/
def form (kind : SpliceKind) : Form :=
  Form.named kind.toJson

/-- The form of a kind of splices is written as the kind is. -/
theorem json_form (kind : SpliceKind) : kind.form.json = kind.toJson := by
  cases kind <;> rfl

/-- Kinds of splices are read as they are accepted, from a bare name or from an object. -/
theorem reads (bound : Nat) : Reads bound ofJson? form where
  iff {json kind} _ := by
    refine ⟨fun h => ?_, fun h => ?_⟩
    · unfold ofJson? at h
      split at h <;> cases h <;> exact accepts_bare_iff.mpr ‹_›
    · cases kind <;> rcases h with rfl | rfl <;> rfl
  null := rfl
  present kind := by cases kind <;> nofun

end SpliceKind

namespace ExpansionStep

/-- The fields of a step. -/
def fields : FieldNames where
  names := ["macro_name", "span", "call", "fragments", "splice"]

/-- The form of a step. -/
def form (step : ExpansionStep) : Form :=
  recordOf fields true [text step.macroName, step.span.form, text step.call,
    listOf text step.fragments, step.splice.form]

/-- The form of a step of the trace is written as the step is. -/
theorem json_form (step : ExpansionStep) : step.form.json = step.toJson := by
  simp [form, toJson, Form.json, json_recordOf, fields, SpliceKind.json_form, Span.json_form]

/-- Steps of the trace are read as they are accepted. -/
theorem reads (bound : Nat) : Reads bound ofJson? form := by
  refine .mono (.own fields (fun _ => rfl) (fun _ => rfl) fun given step hlength hwithin => ?_)
    bound.le_succ
  rcases given with _ | ⟨macroName, _ | ⟨span, _ | ⟨call, _ | ⟨fragments, _ | ⟨splice, _ | _⟩⟩⟩⟩⟩ <;>
    cases hlength
  simp only [List.forall_mem_cons] at hwithin
  obtain ⟨hmacroName, hspan, hcall, hfragments, hsplice, -⟩ := hwithin
  cases step
  simp [(reads_asString? bound).bind_iff hmacroName, (Span.reads bound).bind_iff hspan,
    (reads_asString? bound).bind_iff hcall, (reads_asString? bound).asListOf?.bind_iff hfragments,
    (SpliceKind.reads bound).bind_iff hsplice]

end ExpansionStep

/-! ## Diagnostics -/

namespace Severity

/-- The form of a severity. -/
def form (severity : Severity) : Form :=
  Form.named severity.toJson

/-- The form of a severity is written as the severity is. -/
theorem json_form (severity : Severity) : severity.form.json = severity.toJson := by
  cases severity <;> rfl

/-- Severities are read as they are accepted, from a bare name or from an object. -/
theorem reads (bound : Nat) : Reads bound ofJson? form where
  iff {json severity} _ := by
    refine ⟨fun h => ?_, fun h => ?_⟩
    · unfold ofJson? at h
      split at h <;> cases h <;> exact accepts_bare_iff.mpr ‹_›
    · cases severity <;> rcases h with rfl | rfl <;> rfl
  null := rfl
  present severity := by cases severity <;> nofun

end Severity

namespace Location

/-- The fields of a place. -/
def fields : FieldNames where
  names := ["file", "span"]

/-- The form of a place. -/
def form (location : Location) : Form :=
  recordOf fields true [text location.file, location.span.form]

/-- The form of a location is written as the location is. -/
theorem json_form (location : Location) : location.form.json = location.toJson := by
  simp [form, toJson, Form.json, json_recordOf, fields, Span.json_form]

/-- Locations are read as they are accepted. -/
theorem reads (bound : Nat) : Reads bound ofJson? form := by
  refine .mono (.own fields (fun _ => rfl) (fun _ => rfl) fun given location hlength hwithin => ?_)
    bound.le_succ
  rcases given with _ | ⟨file, _ | ⟨span, _ | _⟩⟩ <;> cases hlength
  simp only [List.forall_mem_cons] at hwithin
  obtain ⟨hfile, hspan, -⟩ := hwithin
  cases location
  simp [(reads_asString? bound).bind_iff hfile, (Span.reads bound).bind_iff hspan]

end Location

namespace DiagnosticRecord

/-- The fields of a diagnostic. -/
def fields : FieldNames where
  names := ["severity", "code", "message", "location"]

/-- The form of a diagnostic. -/
def form (record : DiagnosticRecord) : Form :=
  recordOf fields true [record.severity.form, text record.code, text record.message,
    Form.optional Location.form record.location]

/-- The form of a diagnostic is written as the diagnostic is. -/
theorem json_form (record : DiagnosticRecord) : record.form.json = record.toJson := by
  obtain ⟨severity, code, message, location⟩ := record
  cases location <;>
    simp [form, toJson, Form.json, json_recordOf, fields, Severity.json_form, Location.json_form]

/-- Diagnostics are read as they are accepted. -/
theorem reads (bound : Nat) : Reads bound ofJson? form := by
  refine .mono (.own fields (fun _ => rfl) (fun _ => rfl) fun given record hlength hwithin => ?_)
    bound.le_succ
  rcases given with _ | ⟨severity, _ | ⟨code, _ | ⟨message, _ | ⟨location, _ | _⟩⟩⟩⟩ <;> cases hlength
  simp only [List.forall_mem_cons] at hwithin
  obtain ⟨hseverity, hcode, hmessage, hlocation, -⟩ := hwithin
  cases record
  simp [(Severity.reads bound).bind_iff hseverity, (reads_asString? bound).bind_iff hcode,
    (reads_asString? bound).bind_iff hmessage, (Location.reads bound).optional_bind_iff hlocation]

end DiagnosticRecord

/-! ## All of them -/

/-- Everything that hosts exchange is read as it was written: nodes and files, types, constants and
spans, markers, fragments, steps and diagnostics. -/
theorem nodes_are_read_as_written :
    Serializes Expr.toJson Expr.ofJson? ∧ Serializes Call.toJson Call.ofJson? ∧
    Serializes Lambda.toJson Lambda.ofJson? ∧ Serializes Stmt.toJson Stmt.ofJson? ∧
    Serializes Block.toJson Block.ofJson? ∧ Serializes FunctionDecl.toJson FunctionDecl.ofJson? ∧
    Serializes Item.toJson Item.ofJson? ∧ Serializes SyntaxTree.toJson SyntaxTree.ofJson? ∧
    Serializes TypeRef.toJson TypeRef.ofJson? ∧ Serializes Literal.toJson Literal.ofJson? ∧
    Serializes Span.toJson Span.ofJson? ∧ Serializes Marker.toJson Marker.ofJson? ∧
    Serializes Fragment.toJson Fragment.ofJson? ∧
    Serializes ExpansionStep.toJson ExpansionStep.ofJson? ∧
    Serializes DiagnosticRecord.toJson DiagnosticRecord.ofJson? :=
  ⟨.of_reads Expr.reads Expr.json_form, .of_reads Call.reads Call.json_form,
    .of_reads Lambda.reads Lambda.json_form, .of_reads Stmt.reads Stmt.json_form,
    .of_reads Block.reads Block.json_form, .of_reads FunctionDecl.reads FunctionDecl.json_form,
    .of_reads Item.reads Item.json_form, .of_reads SyntaxTree.reads SyntaxTree.json_form,
    .of_reads TypeRef.reads TypeRef.json_form, .of_reads Literal.reads Literal.json_form,
    .of_reads Span.reads Span.json_form, .of_reads Marker.reads Marker.json_form,
    .of_reads Fragment.reads Fragment.json_form,
    .of_reads ExpansionStep.reads ExpansionStep.json_form,
    .of_reads DiagnosticRecord.reads DiagnosticRecord.json_form⟩

/-- A span is read from a sequence, and a type that carries nothing from an object with null. Neither
is what is written for it up to fields that are left out or missing. -/
theorem sequences_and_null_are_read :
    (Span.ofJson? (.array [.int 0, .int 5]) = some ⟨0, 5⟩ ∧
      ¬Json.Differs False (.array [.int 0, .int 5]) (Span.toJson ⟨0, 5⟩)) ∧
    TypeRef.ofJson? (.object [("Void", .null)]) = some .void ∧
      ¬Json.Differs False (.object [("Void", .null)]) (TypeRef.toJson .void) := by
  refine ⟨⟨rfl, fun h => ?_⟩, rfl, fun h => ?_⟩
  · cases h with
    | sequence hother => exact hother
  · cases h with
    | name hother => exact hother

end MacroExpansion
