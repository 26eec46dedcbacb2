import Encapsulate.Proofs.Scoping
import Encapsulate.Proofs.Wrapping

/-!
Declarations in new blocks. The variables of a declaration are gone behind a block that is
put around it. This does no harm to a branch of an `if` or to the body of a loop or a switch,
where they are gone anyway. But a declaration also gets a block where the search only knows
that some other statement is around it, as behind a label: there the statements that follow
use its variables.
-/

namespace Encapsulate.Accessors

open Cpp Encapsulate.Tree

def isControlled (stmt : CodeNode) (outer : List CodeNode) : Bool :=
  match outer.head?.map CodeNode.shape with
  | some (.loop ..) | some .switch => stmt.role == .body
  | some .branch => stmt.role == .consequence || stmt.role == .alternative
  | _ => false

/-- What is a branch or a body leaves no names behind the statement that it belongs to. -/
theorem opensScope_of_isControlled {stmt parent : CodeNode} {outer : List CodeNode}
    (h : isControlled stmt (parent :: outer) = true) : opensScope parent.shape = true := by
  unfold isControlled at h
  simp only [List.head?_cons, Option.map_some] at h
  split at h
  · rename_i hshape
    rw [Option.some.inj hshape]
    rfl
  · rename_i hshape
    rw [Option.some.inj hshape]
    rfl
  · rename_i hshape
    rw [Option.some.inj hshape]
    rfl
  · exact absurd h (by simp)

/-- Where a statement may stand but is not directly inside a block, it is a branch or a body,
or some other statement is around it. -/
theorem isControlled_iff {stmt : CodeNode} {outer : List CodeNode}
    (hslot : inStatementSlot stmt outer = true) (hblock : directlyInBlock stmt outer = false) :
    ∃ parent rest, outer = parent :: rest ∧
      (isControlled stmt outer = true ↔ parent.shape ≠ .otherStmt) := by
  cases outer with
  | nil => simp [inStatementSlot] at hslot
  | cons parent rest =>
    refine ⟨parent, rest, rfl, ?_⟩
    unfold inStatementSlot at hslot
    unfold directlyInBlock at hblock
    unfold isControlled
    simp only [List.head?_cons, Option.map_some] at hslot hblock ⊢
    cases hshape : parent.shape with
    | loop kind element => simpa [hshape] using hslot
    | switch => simpa [hshape] using hslot
    | branch => simpa [hshape] using hslot
    | block => simp [hshape] at hblock
    | caseLabel =>
      simp only [hshape] at hslot hblock
      rw [hslot] at hblock
      exact absurd hblock (by simp)
    | otherStmt => simp
    | _ => simp [hshape] at hslot

variable {setting : Setting} {body : SurveyedCode} {p q : List Nat}

/-- What a block around the declaration of some variables at `q` means for them. It is harmless
if the declaration is a branch or a body of the statement around it, which then leaves no
names behind it. It is not if that is some other statement, which leaves them all. -/
structure WrappedIn (body : SurveyedCode) (q : List Nat) (vars : List Var) (parent : SurveyedCode) :
    Prop where
  place : ∃ p n, q = p ++ [n] ∧ body.at? p = some parent
  controlled : ((body.at? q).any fun t => isControlled t.info.1 (ancestorsAt body q)) = true ↔
    parent.info.1.shape ≠ .otherStmt
  harmless : parent.info.1.shape ≠ .otherStmt → ∀ x, ¬Leaves parent.code x
  visible : parent.info.1.shape = .otherStmt → ∀ v ∈ vars, Leaves parent.code v.name

/-- A declaration that needs a block and has a helper statement beside it. -/
theorem exists_wrappedIn (hopen : isOpenAt body q = true)
    (hhost : host? setting body p = some q) {t : SurveyedCode} {vars : List Var}
    (ht : body.at? q = some t) (hshape : t.info.1.shape = .declaration vars) :
    ∃ parent, WrappedIn body q vars parent := by
  obtain ⟨w, t', -, -, ht', -, -, -, -, -, -, hslot⟩ := exists_of_host? hhost
  obtain rfl := Option.some.inj (ht'.symm.trans ht)
  rw [isOpenAt, ht, Option.any_some, Bool.not_eq_true'] at hopen
  obtain ⟨above, rest, hanc, hiff⟩ := isControlled_iff (hslot vars hshape) hopen
  have houter : ancestorsAt body q = [] ++ above :: rest := by rw [hanc, List.nil_append]
  obtain ⟨s, hs, hnode, -, hbelow, -⟩ := exists_at?_take ht houter
  -- the declaration is a child of the statement around it
  have hlen : (ancestorsAt body q).length = q.length := by
    rw [ancestorsAt, List.length_map, length_above ht]
  rw [hanc, List.length_cons] at hlen
  obtain ⟨n, hn⟩ : ∃ n, q.drop rest.length = [n] :=
    List.length_eq_one_iff.mp (by rw [List.length_drop]; omega)
  rw [hn] at hbelow
  obtain ⟨d, hd, hbelow⟩ := Option.bind_eq_some_iff.mp hbelow
  obtain rfl : d = t' := Option.some.inj hbelow
  refine ⟨s, ⟨q.take rest.length, n, ?_, hs⟩, ?_, ?_, ?_⟩
  · rw [← hn, List.take_append_drop]
  · rw [ht, Option.any_some, hnode, hiff]
  · intro hother x hleaves
    rw [← hnode] at hiff hanc
    have hopens := opensScope_of_isControlled (hanc ▸ hiff.mpr hother)
    obtain ⟨i, parts⟩ := s
    rw [SurveyedCode.code_node, leaves_node_iff] at hleaves
    exact absurd (hopens.symm.trans hleaves.1) (by simp)
  · intro hother v hv
    obtain ⟨i, parts⟩ := s
    obtain ⟨j, children⟩ := d
    rw [SurveyedCode.code_node]
    refine .part (c := SurveyedCode.code (.node j children)) ?_ ?_ ?_
    · rw [info_node] at hother
      rw [hother]
      rfl
    · exact List.mem_map_of_mem (List.mem_of_getElem? hd)
    · rw [SurveyedCode.code_node]
      exact .var hshape hv

variable (setting) in
/-- Where a search puts a block around a declaration, no variable is hidden exactly if the
declaration is a branch of an `if` or the body of a loop or a switch. Else some other statement
is around it, behind which all its variables are in force. -/
theorem wrapped_declaration_hidden_iff (fs : List Function)
    (hfull : ∀ f ∈ fs, ∀ b, f.body = some b → Everywhere Code.Full b) :
    ∃ made : List (List Insertion),
      made.flatten.map Insertion.edit =
          (journalOf setting (actsOfFunctions setting fs) {}).insertions ∧
        List.Forall₂ (fun body ms => Balanced setting body ms ∧
          ∀ m ∈ ms, m.part = .opening → ∀ t vars, body.at? m.host = some t →
            t.info.1.shape = .declaration vars → ∃ parent, WrappedIn body m.host vars parent)
          (surveyFunctions setting.symbols fs) made := by
  obtain ⟨-, made, hmade, hedits⟩ := balanced_bodies setting
    (surveyFunctions setting.symbols fs) (eventsOf_surveyFunctions setting fs hfull) (s := {}) rfl
  refine ⟨made, hedits, hmade.imp fun body ms hms => ⟨hms, fun m hm hpart t vars ht hshape => ?_⟩⟩
  obtain ⟨hopen, p, hhost⟩ := hms.opens hm hpart
  exact exists_wrappedIn hopen hhost ht hshape

section Example

open ParseTree

/-- A function with the statements `l:int b=a.x=2;b;`. -/
def labelledTree : ParseTree :=
  unitTree 45
    [named "labeled_statement" 29 43
       [filling "label" "statement_identifier" 29 30 [],
        named "declaration" 31 43
          [filling "type" "primitive_type" 31 34 [],
           filling "declarator" "init_declarator" 35 42
             [filling "declarator" "identifier" 35 36 [],
              filling "value" "assignment_expression" 37 42
                [accessTree "left" 37, mark (some "operator") "=" 40 41,
                 filling "right" "number_literal" 41 42 []]]]],
     named "expression_statement" 43 45 [named "identifier" 43 44 []]]

def labelledFile : SourceFile :=
  .ofParsed "label.cpp" (unitText "l:int b=a.x=2;b;") ⟨labelledTree, false⟩

def labelledSetting : Setting :=
  .ofUnit ["F::x"] ⟨labelledFile, []⟩

def labelledBody : SurveyedCode :=
  (labelledFile.functions.head?.bind
    (surveyFunction labelledSetting.symbols)).getD
    (.node (⟨.body, .block, .point 0⟩, {}) [])

/-- The search opens a block in front of the declaration behind the label and closes it behind
the declaration, though `b` means that variable in the next statement too. -/
theorem labelled_declaration_wrapped :
    Edit.insertBefore 31 "\x7b\n" ∈ (scan labelledSetting labelledFile.functions).queue ∧
      Edit.insertAfter 43 "\n\x7d" ∈ (scan labelledSetting labelledFile.functions).queue ∧
      ((labelledBody.at? [0, 1]).any fun t => decide (t.info.1.span = ⟨31, 43⟩) &&
        (t.info.1.shape matches .declaration [_]) &&
        !isControlled t.info.1 (ancestorsAt labelledBody [0, 1])) = true ∧
      ((labelledBody.at? [0, 1]).any fun t => t.info.2.ordinal "b" == 0) = true ∧
      ((labelledBody.at? [1, 0]).any fun t => decide (t.info.1.span = ⟨43, 44⟩) &&
        t.info.2.ordinal "b" == 2) = true := by
  decide +kernel

/-- What the blocks in that function are put around. -/
theorem wrapped_declaration_hidden_iff_label :
    (∀ f ∈ labelledFile.functions, ∀ b, f.body = some b → Everywhere Code.Full b) ∧
      ∃ made : List (List Insertion),
        made.flatten.map Insertion.edit =
            [.insertBefore 31 "\x7b\n", .insertBefore 31 "a.setX( 2 );\n",
              .insertAfter 43 "\n\x7d"] ∧
          List.Forall₂ (fun body ms => Balanced labelledSetting body ms ∧
            ∀ m ∈ ms, m.part = .opening → ∀ t vars, body.at? m.host = some t →
              t.info.1.shape = .declaration vars → ∃ parent, WrappedIn body m.host vars parent)
            (surveyFunctions labelledSetting.symbols labelledFile.functions) made := by
  have hfull : ∀ f ∈ labelledFile.functions, ∀ b, f.body = some b → Everywhere Code.Full b :=
    fun f hf b hb => full_body hf hb
  obtain ⟨made, hedits, hmade⟩ :=
    wrapped_declaration_hidden_iff labelledSetting labelledFile.functions hfull
  refine ⟨hfull, made, ?_, hmade⟩
  rw [hedits]
  decide +kernel

end Example

end Encapsulate.Accessors
