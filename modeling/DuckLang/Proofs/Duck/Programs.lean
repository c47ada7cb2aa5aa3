import DuckLang.Proofs.Duck.Statements

/-! The productions of declarations, functions and programs keep the discipline, and so does the
whole language. -/

namespace DuckLang.Duck

open Emitter
open Draft (Takes)
open Grammar.Duck (rule t n)

/-! ### Declarations -/

theorem keeps_header : Keeps (rule "ProgHeader" [t "program", t "id", t ";"]) := by
  refine keeps_of_walk rfl ?_
  rintro _ rfl
  refine walk_token rfl fun _ _ => walk_token rfl ?_
  rintro _ ⟨text, rfl, hempty, hmain⟩
  refine walk_token rfl fun _ _ => walk_effect rfl rfl (Takes.bind ?_)
  exact (Draft.blank_initProgram hempty hmain).mono fun _ γ' h => .pure h

theorem keeps_typeName {name : String} {type : DataType} (hplain : Hook.of? name = none)
    (hname : name ∉ ["id", "cte_string", "cte_int", "cte_float", "cte_char"])
    (htype : DataType.ofKeyword? name = some type) (hstorable : type.isStorable = true) :
    Keeps (rule "Type" [t name]) := by
  refine keeps_of_walk rfl fun γ _ => walk_token hplain fun a ha => ?_
  refine walk_pass rfl rfl ⟨rfl, type, ?_, hstorable⟩
  rw [ha.text_eq hname, htype]

/-- The type that an attribute names is found. -/
theorem typeOf_eq {a : Attribute} {type : DataType} (h : DataType.ofKeyword? a.text = some type) :
    Parser.typeOf a = pure type := by
  simp only [Parser.typeOf, h]

theorem keeps_varType : Keeps (rule "VarType" [n "Type"]) := by
  refine keeps_of_walk rfl fun γ hvalid => walk_phrase rfl trivial ?_
  rintro a _ ⟨rfl, type, htype, hstorable⟩
  refine walk_effect rfl rfl ?_
  show Takes (Parser.typeOf a >>= fun type => changeScope (fun s => .ok () (s.setType type)) >>=
    fun _ => pure a) _ _
  rw [typeOf_eq htype, pure_bind]
  exact Takes.bind ((Draft.Valid.setType hvalid hstorable).mono fun _ γ' h => .pure h)

theorem keeps_nameFirst : Keeps (rule "IdList" [t "id"]) := by
  refine keeps_of_walk rfl fun γ hready => walk_token rfl fun name _ => ?_
  refine walk_effect rfl rfl (Takes.bind ?_)
  exact (hready.1.declareVariable hready.2 name.text).mono fun _ γ' h => .pure h

theorem keeps_nameNext : Keeps (rule "IdList" [n "IdList", t ",", t "id"]) := by
  refine keeps_of_walk rfl fun γ hready => walk_phrase rfl hready fun _ γ₁ h₁ => ?_
  refine walk_token rfl fun _ _ => walk_token rfl fun name _ => ?_
  refine walk_effect rfl rfl (Takes.bind ?_)
  exact (h₁.1.valid.declareVariable h₁.2 name.text).mono fun _ γ' h =>
    .pure ⟨h₁.1.trans h.1, h.2⟩

theorem keeps_varDecl : Keeps (rule "VarDecl" [n "VarType", n "IdList", t ";"]) := by
  refine keeps_of_walk rfl fun γ hvalid => walk_phrase rfl hvalid fun _ γ₁ h₁ => ?_
  refine walk_phrase rfl ⟨h₁.1.valid, h₁.2⟩ fun _ γ₂ h₂ => walk_token rfl fun _ _ => ?_
  exact walk_plain rfl (by simp) rfl (h₁.1.trans h₂.1)

theorem keeps_varList : Keeps (rule "VarList" [n "VarList", n "VarDecl"]) := by
  refine keeps_of_walk rfl fun γ hvalid => walk_phrase rfl hvalid fun _ γ₁ h₁ => ?_
  refine walk_phrase rfl h₁.valid fun _ γ₂ h₂ => ?_
  exact walk_plain rfl (by simp) rfl (h₁.trans h₂)

theorem keeps_vars : Keeps (rule "VarsOpt" [t "var", n "VarList"]) := by
  refine keeps_of_walk rfl fun γ hvalid => walk_token rfl fun _ _ => ?_
  exact walk_phrase rfl hvalid fun _ γ₁ h₁ => walk_plain rfl (by simp) rfl h₁

theorem keeps_declarationRules : ∀ p ∈ Grammar.Duck.declarationRules, Keeps p := by
  simp only [Grammar.Duck.declarationRules, List.forall_mem_cons, List.not_mem_nil,
    IsEmpty.forall_iff, implies_true, and_true]
  refine ⟨keeps_vars, ?_, keeps_varList, keeps_unit rfl rfl rfl, keeps_varDecl, keeps_varType,
    keeps_typeName rfl (by decide) rfl rfl, keeps_typeName rfl (by decide) rfl rfl,
    keeps_typeName rfl (by decide) rfl rfl, keeps_nameFirst, keeps_nameNext⟩
  exact keeps_of_walk rfl fun γ hvalid =>
    walk_plain rfl (by simp) rfl (Draft.Valid.declares hvalid)

/-! ### Functions -/

theorem keeps_functions : Keeps (rule "Funcs" [n "Funcs", n "Func"]) := by
  refine keeps_of_walk rfl fun γ hready => walk_phrase rfl hready fun _ γ₁ h₁ => ?_
  exact walk_phrase rfl h₁ fun _ γ₂ h₂ => walk_plain rfl (by simp) rfl h₂

theorem keeps_function : Keeps (rule "Func" [n "FuncHeader", t "(", n "ParamsOpt", t ")", t "[",
    n "VarsOpt", n "Body", t "]", t ";"]) := by
  refine keeps_of_walk rfl fun γ hready => walk_phrase rfl hready fun _ γ₁ h₁ => ?_
  refine walk_token rfl fun _ _ => walk_phrase rfl h₁ fun _ γ₂ h₂ => ?_
  refine walk_token rfl fun _ _ => walk_token rfl fun _ _ => ?_
  refine walk_phrase rfl h₂.valid fun _ γ₃ h₃ => ?_
  have hinside := h₃.inFunction h₂.inside
  refine walk_phrase rfl ⟨h₃.valid, hinside.rest⟩ fun _ γ₄ h₄ => ?_
  refine walk_token rfl fun _ _ => walk_token rfl fun _ _ => walk_effect rfl rfl (Takes.bind ?_)
  exact (h₄.valid.endFunction (h₄.inFunction hinside)).mono fun _ γ' h => .pure h

theorem keeps_functionHeader : Keeps (rule "FuncHeader" [t "func", n "RetType", t "id"]) := by
  refine keeps_of_walk rfl fun γ hready => walk_token rfl fun _ _ => walk_phrase rfl trivial ?_
  rintro a _ ⟨rfl, type, htype, hreturns⟩
  refine walk_token rfl ?_
  rintro _ ⟨text, rfl, _, hmain⟩
  refine walk_effect rfl rfl ?_
  show Takes (Parser.typeOf a >>= fun type => beginFunction text type >>=
    fun _ => pure (Attribute.lexeme text)) _ _
  rw [typeOf_eq htype, pure_bind]
  exact Takes.bind ((hready.1.beginFunction hready.2 hmain hreturns).mono fun _ γ' h => .pure h)

theorem keeps_returnType : Keeps (rule "RetType" [n "Type"]) := by
  refine keeps_of_walk rfl fun γ _ => walk_phrase rfl trivial ?_
  rintro a _ ⟨rfl, type, htype, hstorable⟩
  exact walk_pass rfl rfl ⟨rfl, type, htype, .inr hstorable⟩

theorem keeps_void : Keeps (rule "RetType" [t "void"]) := by
  refine keeps_of_walk rfl fun γ _ => walk_token rfl fun a ha => ?_
  refine walk_pass rfl rfl ⟨rfl, .void, ?_, .inl rfl⟩
  rw [ha.text_eq (by decide)]
  rfl

theorem keeps_parameters : Keeps (rule "ParamList" [n "ParamList", t ",", n "Param"]) := by
  refine keeps_of_walk rfl fun γ hready => walk_phrase rfl hready fun _ γ₁ h₁ => ?_
  refine walk_token rfl fun _ _ => walk_phrase rfl h₁ fun _ γ₂ h₂ => ?_
  exact walk_plain rfl (by simp) rfl h₂

theorem keeps_parameter : Keeps (rule "Param" [n "Type", t "id"]) := by
  refine keeps_of_walk rfl fun γ hready => walk_phrase rfl trivial ?_
  rintro a _ ⟨rfl, type, htype, hstorable⟩
  refine walk_token rfl fun name _ => walk_effect rfl rfl ?_
  show Takes (Parser.typeOf a >>= fun type => addParameter name.text type >>=
    fun _ => pure Attribute.nothing) _ _
  rw [typeOf_eq htype, pure_bind]
  exact Takes.bind ((hready.addParameter name.text hstorable).mono fun _ γ' h => .pure h)

theorem keeps_functionRules : ∀ p ∈ Grammar.Duck.functionRules, Keeps p := by
  simp only [Grammar.Duck.functionRules, List.forall_mem_cons, List.not_mem_nil,
    IsEmpty.forall_iff, implies_true, and_true]
  refine ⟨keeps_functions, ?_, keeps_function, keeps_functionHeader, keeps_returnType, keeps_void,
    keeps_unit rfl rfl rfl, ?_, keeps_unit rfl rfl rfl, keeps_parameters, keeps_parameter⟩
  · exact keeps_of_walk rfl fun γ hready => walk_plain rfl (by simp) rfl hready
  · exact keeps_of_walk rfl fun γ hready => walk_plain rfl (by simp) rfl hready

/-! ### Programs -/

theorem keeps_program : Keeps Grammar.Duck.programRule := by
  refine keeps_of_walk rfl fun γ hready => walk_phrase rfl hready fun _ γ₁ h₁ => ?_
  refine walk_phrase rfl h₁.1 fun _ γ₂ h₂ => ?_
  refine walk_phrase rfl ⟨h₂.valid, h₂.isGlobal h₁.2⟩ fun _ γ₃ h₃ => ?_
  refine walk_hook rfl (h₃.1.markMain h₃.2) fun _ γ₄ h₄ => ?_
  refine walk_phrase rfl ⟨h₄.1, h₄.2.rest⟩ fun _ γ₅ h₅ => walk_token rfl fun _ _ => ?_
  refine walk_effect rfl rfl (Takes.bind ?_)
  refine (h₅.valid.finish).mono fun _ γ' h => .pure ⟨h.valid, ?_⟩
  exact h.inMain (h₅.inMain h₄.2)

/-- Every production of the language does what its head promises. -/
theorem kept : discipline.Kept Grammar.duck .blank where
  start := by
    intro name hname
    have hbody : (Grammar.duck.production 0).body = [.nonterminal "Program"] := rfl
    rw [hbody, List.mem_singleton] at hname
    obtain rfl := Grammar.Symbol.nonterminal.inj hname
    rfl
  walk := by
    intro id p hp hid
    rcases Grammar.ofProductions_rule hp with ⟨hzero, _⟩ | ⟨_, hmem⟩
    · exact absurd hzero hid
    · simp only [List.mem_cons, List.mem_append, Grammar.Duck.headerRules, List.not_mem_nil,
        or_false] at hmem
      rcases hmem with rfl | (((rfl | hmem) | hmem) | hmem) | hmem
      · exact keeps_program
      · exact keeps_header
      · exact keeps_declarationRules p hmem
      · exact keeps_functionRules p hmem
      · exact keeps_statementRules p hmem
      · exact keeps_expressionRules p hmem

end DuckLang.Duck
