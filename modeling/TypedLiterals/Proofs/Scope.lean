import TypedLiterals.Proofs.Scan

/-!
Names in the scopes of a script.

A literal call is found by the name that it applies, wherever the call stands. The import binds the name in the
whole script, but a function, a block or a `catch` around the call may bind it anew. So the calls found are those
of the imported function exactly when no literal call of its name stands where the name is bound anew.

What a script binds is for its language to say. `Scoping` stands for any account of it that binds only names that
are written as identifiers and not called, and that knows the parameters of functions, the declarations that begin
their statements, and the bindings of `catch`.
-/

namespace TypedLiterals

open Syntax

namespace Scan

variable {literals : Config.Literals} {text : List Char} {program call callee : Tree} {names : List String}
  {name : String} {occurrence : Occurrence}

/-! ## Calls of imported names -/

/-- The name by which its module knows what a specifier imports. -/
def importedName (text : List Char) (specifier : Tree) : List Char :=
  ((specifier.child? .name).map fun name => withoutQuotes (name.textIn text)).getD []

/-- The name that a specifier binds. -/
def localName (text : List Char) (specifier : Tree) : List Char :=
  ((specifier.child? .localName).map (·.textIn text)).getD (importedName text specifier)

/-- Whether a specifier of an import statement binds a configured function of a configured module to a name. -/
inductive Imports (literals : Config.Literals) (text : List Char) (program : Tree) : String → Prop
  | specifier {statement source clause part specifier : Tree} :
      statement ∈ program.children → statement.kind = .importStatement →
      statement.child? .source = some source →
      literals.modules.contains (String.ofList (withoutQuotes (source.textIn text))) = true →
      clause ∈ statement.children → clause.kind = .importClause →
      part ∈ clause.children → part.kind = .namedImports →
      specifier ∈ part.children → specifier.kind = .importSpecifier →
      literals.functions.contains (String.ofList (importedName text specifier)) = true →
      Imports literals text program (String.ofList (localName text specifier))

/-- A call that applies an imported name to a literal. -/
structure LiteralCall (literals : Config.Literals) (text : List Char) (program call callee : Tree) : Prop where
  inside : call ∈ program.all
  literal : ∃ arguments template, IsLiteralCall call arguments template
  applied : call.children.head? = some callee
  identifier : callee.kind = .identifier
  imported : Imports literals text program (String.ofList (callee.textIn text))

theorem mem_names_boundBySpecifier {functions : List String} {specifier : Tree} :
    name ∈ (boundBySpecifier functions text specifier).names ↔
      functions.contains (String.ofList (importedName text specifier)) = true ∧
        name = String.ofList (localName text specifier) := by
  by_cases listed : functions.contains (String.ofList (importedName text specifier)) = true
  · have bound : boundBySpecifier functions text specifier = ⟨[String.ofList (localName text specifier)], 0⟩ :=
      if_pos listed
    rw [bound, List.mem_singleton, and_iff_right listed]
  · have bound : boundBySpecifier functions text specifier = ⟨[], 1⟩ := if_neg listed
    rw [bound]
    exact iff_of_false List.not_mem_nil fun both => listed both.1

theorem exists_mem_boundByPart {functions : List String} {part : Tree} :
    (∃ bound ∈ boundByPart functions text part, name ∈ bound.names) ↔
      part.kind = .namedImports ∧ ∃ specifier ∈ part.children, specifier.kind = .importSpecifier ∧
        name ∈ (boundBySpecifier functions text specifier).names := by
  rw [boundByPart]
  split
  · next kind => simp [kind, and_assoc]
  · next other => simp [other]

theorem mem_names_boundByImport {functions : List String} {statement : Tree} :
    name ∈ (boundByImport functions text statement).names ↔
      ∃ clause ∈ statement.children, clause.kind = .importClause ∧ ∃ part ∈ clause.namedChildren,
        ∃ bound ∈ boundByPart functions text part, name ∈ bound.names := by
  simp only [boundByImport, List.mem_flatMap, List.mem_filter, decide_eq_true_eq]
  constructor
  · rintro ⟨bound, ⟨clause, ⟨listed, kind⟩, part, inside, bounds⟩, named⟩
    exact ⟨clause, listed, kind, part, inside, bound, bounds, named⟩
  · rintro ⟨clause, listed, kind, part, inside, bound, bounds, named⟩
    exact ⟨bound, ⟨clause, ⟨listed, kind⟩, part, inside, bounds⟩, named⟩

/-- The names that literal calls are found by are those that the imports bind. -/
theorem mem_bindings_iff : name ∈ bindings literals text program ↔ Imports literals text program name := by
  rw [bindings, List.mem_flatMap]
  constructor
  · rintro ⟨pair, listed, named⟩
    obtain ⟨imported, member, rfl⟩ := List.mem_map.mp listed
    obtain ⟨inside, module⟩ := List.mem_filter.mp member
    obtain ⟨statement, kind, source, child, same⟩ := mem_imports_iff.mp inside
    obtain ⟨clause, clauseListed, clauseKind, part, partListed, bound⟩ := mem_names_boundByImport.mp named
    obtain ⟨partKind, specifier, specifierListed, specifierKind, binds⟩ := exists_mem_boundByPart.mp bound
    obtain ⟨configured, rfl⟩ := mem_names_boundBySpecifier.mp binds
    rw [← same] at module
    exact .specifier statement kind child module clauseListed clauseKind (List.mem_filter.mp partListed).1 partKind
      specifierListed specifierKind configured
  · rintro ⟨statement, kind, child, module, clauseListed, clauseKind, partListed, partKind, specifierListed,
      specifierKind, configured⟩
    refine ⟨_, List.mem_map_of_mem (List.mem_filter.mpr ⟨mem_imports_iff.mpr ⟨statement, kind, _, child, rfl⟩,
      module⟩), mem_names_boundByImport.mpr ⟨_, clauseListed, clauseKind, _,
        List.mem_filter.mpr ⟨partListed, by simp [Tree.isNamed, partKind]⟩, exists_mem_boundByPart.mpr
          ⟨partKind, _, specifierListed, specifierKind, mem_names_boundBySpecifier.mpr ⟨configured, rfl⟩⟩⟩⟩

/-! ## What a scan reports -/

theorem exists_mem_dedupAfter {calls : List Occurrence} {previous : Span} (member : occurrence ∈ calls) :
    occurrence.call = previous ∨ ∃ kept ∈ dedupAfter previous calls, kept.call = occurrence.call := by
  induction calls generalizing previous with
  | nil => cases member
  | cons first rest ih =>
      rw [dedupAfter]
      rcases List.mem_cons.mp member with rfl | later
      · split
        · next same => exact .inl same
        · exact .inr ⟨_, List.mem_cons_self, rfl⟩
      · split
        · exact ih later
        · rcases ih later with same | ⟨kept, inside, same⟩
          · exact .inr ⟨first, List.mem_cons_self, same.symm⟩
          · exact .inr ⟨kept, List.mem_cons_of_mem _ inside, same⟩

theorem exists_mem_dedupSpans {calls : List Occurrence} (member : occurrence ∈ calls) :
    ∃ kept ∈ dedupSpans calls, kept.call = occurrence.call := by
  cases calls with
  | nil => cases member
  | cons first rest =>
      rw [dedupSpans]
      rcases List.mem_cons.mp member with rfl | later
      · exact ⟨_, List.mem_cons_self, rfl⟩
      · rcases @exists_mem_dedupAfter _ rest first.call later with same | ⟨kept, inside, same⟩
        · exact ⟨first, List.mem_cons_self, same.symm⟩
        · exact ⟨kept, List.mem_cons_of_mem _ inside, same⟩

theorem exists_mem_occurrences (member : call ∈ program.all)
    (found : occurrence? names text call = some occurrence) :
    ∃ kept ∈ occurrences names text program, kept.call = occurrence.call := by
  obtain ⟨_, _, _, listed, _⟩ := occurrence?_eq_some_iff.mp found
  have present : names.isEmpty = false := by
    rw [List.isEmpty_eq_false_iff]
    exact List.ne_nil_of_mem listed
  rw [occurrences, present, if_neg Bool.false_ne_true]
  exact exists_mem_dedupSpans ((Span.sortBy_perm _).mem_iff.mpr (List.mem_filterMap.mpr ⟨call, member, found⟩))

/-- What a scan reports are the literal calls of imported names, wherever they stand. -/
theorem reported_iff {dialect : Dialect} {source : String} {span : Span} :
    (∃ occurrence ∈ (SourceScan.ofTree literals dialect source program).occurrences, occurrence.call = span) ↔
      ∃ call callee, LiteralCall literals source.toList program call callee ∧ call.span = span := by
  constructor
  · rintro ⟨occurrence, listed, rfl⟩
    obtain ⟨call, member, found⟩ := exists_of_mem_occurrences listed
    obtain ⟨callee, applied, identifier, named, arguments, template, literal, rfl⟩ :=
      occurrence?_eq_some_iff.mp found
    exact ⟨call, callee, ⟨member, ⟨arguments, template, literal⟩, applied, identifier,
      mem_bindings_iff.mp named⟩, rfl⟩
  · rintro ⟨call, callee, ⟨member, ⟨arguments, template, literal⟩, applied, identifier, imported⟩, rfl⟩
    have found : occurrence? (bindings literals source.toList program) source.toList call =
        some ⟨String.ofList (templateBody source.toList template), call.span⟩ :=
      occurrence?_eq_some_iff.mpr ⟨callee, applied, identifier, mem_bindings_iff.mpr imported, arguments,
        template, literal, rfl⟩
    exact exists_mem_occurrences member found

/-! ## Scopes -/

/-- The name that an identifier stands for. An escape in it stands for a character; `skip` characters belong
to one. -/
def identifierName : (skip : Nat) → List Char → List Char
  | _, [] => []
  | skip + 1, _ :: rest => identifierName skip rest
  | 0, character :: rest =>
    if character = '\\' then
      let digits := (rest.take (escapeLength rest)).filter Text.isHexDigit
      Char.ofNat (digits.foldl (fun sum digit => 16 * sum + Text.hexValue digit) 0) ::
        identifierName (escapeLength rest) rest
    else character :: identifierName 0 rest

/-- Whether an identifier is what a call applies. -/
def IsCallee (program site : Tree) : Prop :=
  ∃ call ∈ program.all, call.kind = .call ∧ call.children.head? = some site

/-- A keyword with a head in parentheses and a body in braces, as functions and `catch` have them. -/
def Headed (text : List Char) (program : Tree) (word : String) (head body : Tree) : Prop :=
  ∃ row ∈ program.all, ∃ front keyword between back,
    row.children = front ++ keyword :: (between ++ head :: body :: back) ∧
    keyword.kind = .keyword ∧ keyword.textIn text = word.toList ∧
    (∀ tree ∈ between, tree.kind ≠ .parentheses ∧ tree.kind ≠ .braces) ∧
    head.kind = .parentheses ∧ body.kind = .braces

/-- Some of the places where a script declares the name of an identifier for a stretch of its text. -/
inductive Declares (text : List Char) (program site : Tree) : Span → Prop
  /-- A parameter of a function that stands alone between commas. -/
  | parameter {head body : Tree} {before after : List Tree} :
      Headed text program "function" head body → head.children = before ++ site :: after →
      (∀ tree ∈ before.getLast?, tree.kind = .comma) → (∀ tree ∈ after.head?, tree.kind = .comma) →
      Declares text program site ⟨head.span.start, body.span.stop⟩
  /-- A declaration in the body of a function, at its start or behind a semicolon. -/
  | declaration {head body word : Tree} {before after : List Tree} :
      Headed text program "function" head body → body.children = before ++ word :: site :: after →
      (∀ tree ∈ before.getLast?, tree.textIn text = [';']) →
      word.textIn text ∈ ["const".toList, "let".toList, "var".toList] →
      Declares text program site body.span
  /-- What `catch` catches. -/
  | caught {head body : Tree} :
      Headed text program "catch" head body → head.children = [site] → Declares text program site body.span

/-- Where the names of a script are bound anew below its top. -/
structure Scoping (text : List Char) (program : Tree) where
  /-- Whether an identifier binds its name in a stretch of the text. -/
  Binds : Tree → Span → Prop
  /-- A name is bound by an identifier that is not called. -/
  loose : ∀ site extent, Binds site extent → site ∈ mentions program ∧ ¬ IsCallee program site
  covers : ∀ site extent, site ∈ mentions program → ¬ IsCallee program site → Declares text program site extent →
    ∃ wide, Binds site wide ∧ wide.start ≤ extent.start ∧ extent.stop ≤ wide.stop

namespace Scoping

/-- The scopes of the declarations that every account knows. -/
def least (text : List Char) (program : Tree) : Scoping text program where
  Binds site extent := site ∈ mentions program ∧ ¬ IsCallee program site ∧ Declares text program site extent
  loose _ _ binds := ⟨binds.1, binds.2.1⟩
  covers _ extent mentioned free declares := ⟨extent, ⟨mentioned, free, declares⟩, le_rfl, le_rfl⟩

/-- Whether the name of a callee is bound anew around it. -/
def Shadows (scoping : Scoping text program) (callee : Tree) : Prop :=
  ∃ site extent, scoping.Binds site extent ∧
    identifierName 0 (site.textIn text) = identifierName 0 (callee.textIn text) ∧
    extent.start ≤ callee.span.start ∧ callee.span.stop ≤ extent.stop

/-- Whether a callee stands for what the import binds. -/
structure Resolves (scoping : Scoping text program) (literals : Config.Literals) (callee : Tree) : Prop where
  imported : Imports literals text program (String.ofList (callee.textIn text))
  unshadowed : ¬ scoping.Shadows callee

theorem not_shadows (scoping : Scoping text program)
    (called : ∀ site ∈ mentions program,
      identifierName 0 (site.textIn text) = identifierName 0 (callee.textIn text) → IsCallee program site) :
    ¬ scoping.Shadows callee := by
  rintro ⟨site, extent, binds, same, _⟩
  obtain ⟨mentioned, free⟩ := scoping.loose site extent binds
  exact free (called site mentioned same)

end Scoping

end Scan

open Scan

/-- A scan reports the literal calls of imported names. They all stand for what the import binds exactly when none
of them stands where its name is bound anew, and they do when their names are only called. -/
theorem reported_calls_resolve_iff {grammar : Grammar} {literals : Config.Literals} {path : Path} {text : String}
    {scanned : SourceScan} (read : scan literals path text grammar = .ok scanned)
    (scoping : Scoping text.toList (grammar scanned.dialect text.toList)) :
    (∀ span, (∃ occurrence ∈ scanned.occurrences, occurrence.call = span) ↔
      ∃ call callee, LiteralCall literals text.toList (grammar scanned.dialect text.toList) call callee ∧
        call.span = span) ∧
    ((∀ occurrence ∈ scanned.occurrences, ∀ call callee,
        LiteralCall literals text.toList (grammar scanned.dialect text.toList) call callee →
        call.span = occurrence.call → scoping.Resolves literals callee) ↔
      ∀ call callee, LiteralCall literals text.toList (grammar scanned.dialect text.toList) call callee →
        ¬ scoping.Shadows callee) ∧
    ∀ call callee, LiteralCall literals text.toList (grammar scanned.dialect text.toList) call callee →
      (∀ site ∈ mentions (grammar scanned.dialect text.toList),
        identifierName 0 (site.textIn text.toList) = identifierName 0 (callee.textIn text.toList) →
        IsCallee (grammar scanned.dialect text.toList) site) →
      scoping.Resolves literals callee := by
  obtain ⟨dialect, rfl⟩ := exists_of_scan read
  refine ⟨fun span => reported_iff, ⟨fun resolves call callee literal => ?_, ?_⟩, fun call callee literal called => ?_⟩
  · obtain ⟨occurrence, listed, same⟩ := reported_iff.mpr ⟨call, callee, literal, rfl⟩
    exact (resolves occurrence listed call callee literal same.symm).unshadowed
  · exact fun free _ _ call callee literal _ => ⟨literal.imported, free call callee literal⟩
  · exact ⟨literal.imported, scoping.not_shadows called⟩

/-! ## A call behind a parameter -/

/-- A function whose parameter has the name of the imported function. -/
def shadowedText : String := "import\x7bgql\x7dfrom'graphql-let';function f(gql)\x7bgql(\x60a\x60)\x7d"

def shadowedScan : SourceScan :=
  ⟨shadowedText, .javaScript, [⟨"a", ⟨45, 53⟩⟩], [⟨0, 29⟩], []⟩

namespace Scan

/-- The specifier of the import statement that begins the text. -/
def specifierTree : Tree :=
  .node .importSpecifier none ⟨7, 10⟩ [(Tree.leaf .identifier ⟨7, 10⟩).withRole .name]

def importTree : Tree :=
  .node .importStatement none ⟨0, 29⟩
    [.leaf .keyword ⟨0, 6⟩,
      .node .importClause none ⟨6, 11⟩
        [.node .namedImports none ⟨6, 11⟩
          [.leaf .punctuation ⟨6, 7⟩, specifierTree, .leaf .punctuation ⟨10, 11⟩]],
      .leaf .keyword ⟨11, 15⟩, (Tree.leaf .string ⟨15, 28⟩).withRole .source, .leaf .punctuation ⟨28, 29⟩]

/-- A literal call of three letters from a given place on. -/
def callTree (start : Nat) : Tree :=
  .node .call none ⟨start, start + 8⟩
    [.leaf .identifier ⟨start, start + 3⟩,
      .node .arguments none ⟨start + 3, start + 8⟩ [.node .template none ⟨start + 4, start + 7⟩ []]]

theorem imports_importTree {text : List Char} {program : Tree} (stands : importTree ∈ program.children)
    (module : Span.textIn ⟨15, 28⟩ text = "'graphql-let'".toList)
    (function : Span.textIn ⟨7, 10⟩ text = "gql".toList) :
    Imports {} text program "gql" := by
  have name : importedName text specifierTree = "gql".toList := by
    change withoutQuotes (Span.textIn ⟨7, 10⟩ text) = _
    rw [function]
    decide
  have binds : String.ofList (localName text specifierTree) = "gql" := by
    change String.ofList (importedName text specifierTree) = _
    rw [name, String.ofList_toList]
  have configured : ["graphql-let"].contains
      (String.ofList (withoutQuotes (Span.textIn ⟨15, 28⟩ text))) = true := by
    rw [module]
    decide +kernel
  have listed : ["gql"].contains (String.ofList (importedName text specifierTree)) = true := by
    rw [name]
    decide +kernel
  have imports : Imports {} text program (String.ofList (localName text specifierTree)) :=
    .specifier stands rfl rfl configured (List.mem_cons_of_mem _ List.mem_cons_self) rfl List.mem_cons_self rfl
      (List.mem_cons_of_mem _ List.mem_cons_self) rfl listed
  rwa [binds] at imports

theorem literalCall_callTree {text : List Char} {program : Tree} {start : Nat}
    (member : callTree start ∈ program.all) (named : Span.textIn ⟨start, start + 3⟩ text = "gql".toList)
    (imported : Imports {} text program "gql") :
    LiteralCall {} text program (callTree start) (.leaf .identifier ⟨start, start + 3⟩) := by
  refine ⟨member, ⟨_, _, rfl, rfl, rfl, rfl, List.forall_mem_nil _⟩, rfl, rfl, ?_⟩
  rwa [Tree.textIn, Tree.leaf, Tree.span, named, String.ofList_toList]

end Scan

theorem parse_smallText : parse .javaScript smallText.toList =
    .node .program none ⟨0, 38⟩ [importTree, callTree 29, .leaf .punctuation ⟨37, 38⟩] := by
  decide +kernel

/-- A name that is called once and stands nowhere else. -/
theorem reported_calls_resolve_small :
    scan {} ⟨"a.js"⟩ smallText = .ok smallScan ∧
    LiteralCall {} smallText.toList (parse .javaScript smallText.toList) (callTree 29)
      (.leaf .identifier ⟨29, 32⟩) ∧
    (Scoping.least smallText.toList (parse .javaScript smallText.toList)).Resolves {}
      (.leaf .identifier ⟨29, 32⟩) := by
  have literal : LiteralCall {} smallText.toList (parse .javaScript smallText.toList) (callTree 29)
      (.leaf .identifier ⟨29, 32⟩) := by
    refine literalCall_callTree ?_ (by decide +kernel) (imports_importTree ?_ (by decide +kernel) (by decide +kernel))
    · rw [parse_smallText]
      exact Tree.mem_all_of_mem_children (List.mem_cons_of_mem _ List.mem_cons_self) (callTree 29).mem_all_self
    · rw [parse_smallText]
      exact List.mem_cons_self
  refine ⟨smallScan_read, literal, ?_⟩
  refine (reported_calls_resolve_iff smallScan_read (Scoping.least _ _)).2.2 _ _ literal fun site mentioned _ => ?_
  have only : mentions (parse smallScan.dialect smallText.toList) = [.leaf .identifier ⟨29, 32⟩] := by
    change mentions (parse .javaScript smallText.toList) = _
    rw [parse_smallText]
    rfl
  rw [only] at mentioned
  rw [List.mem_singleton.mp mentioned]
  exact ⟨callTree 29, literal.inside, rfl, rfl⟩

theorem parse_shadowedText : parse .javaScript shadowedText.toList =
    .node .program none ⟨0, 54⟩
      [importTree, .leaf .keyword ⟨29, 37⟩, .leaf .identifier ⟨38, 39⟩,
        .node .parentheses none ⟨39, 44⟩ [.leaf .identifier ⟨40, 43⟩],
        .node .braces none ⟨44, 54⟩ [callTree 45]] := by
  decide +kernel

theorem declares_shadowedText : Declares shadowedText.toList (parse .javaScript shadowedText.toList)
    (.leaf .identifier ⟨40, 43⟩) ⟨39, 54⟩ := by
  have headed : Headed shadowedText.toList (parse .javaScript shadowedText.toList) "function"
      (.node .parentheses none ⟨39, 44⟩ [.leaf .identifier ⟨40, 43⟩])
      (.node .braces none ⟨44, 54⟩ [callTree 45]) := by
    rw [parse_shadowedText]
    refine ⟨_, Tree.mem_all_self _, [importTree], .leaf .keyword ⟨29, 37⟩, [.leaf .identifier ⟨38, 39⟩], [], rfl, rfl,
      by decide +kernel, ?_, rfl, rfl⟩
    simp [Tree.leaf, Tree.kind]
  exact @Declares.parameter _ _ _ _ _ [] [] headed rfl (by simp) (by simp)

/-- A call in a function is reported although its name is a parameter of the function. -/
theorem shadowed_call_reported :
    scan {} ⟨"a.js"⟩ shadowedText = .ok shadowedScan ∧
    (parse .javaScript shadowedText.toList).Unbroken shadowedText.toList ∧
    LiteralCall {} shadowedText.toList (parse .javaScript shadowedText.toList) (callTree 45)
      (.leaf .identifier ⟨45, 48⟩) ∧
    (∃ occurrence ∈ shadowedScan.occurrences, occurrence.call = (callTree 45).span) ∧
    ∀ scoping : Scoping shadowedText.toList (parse .javaScript shadowedText.toList),
      ¬ scoping.Resolves {} (.leaf .identifier ⟨45, 48⟩) := by
  refine ⟨by decide +kernel, by decide +kernel, ?_, ⟨_, List.mem_cons_self, rfl⟩, fun scoping resolves => ?_⟩
  · refine literalCall_callTree ?_ (by decide +kernel) (imports_importTree ?_ (by decide +kernel) (by decide +kernel))
    · rw [parse_shadowedText]
      have inBody : callTree 45 ∈ (Syntax.Tree.node .braces none ⟨44, 54⟩ [callTree 45]).all :=
        Tree.mem_all_of_mem_children List.mem_cons_self (callTree 45).mem_all_self
      exact Tree.mem_all_of_mem_children (List.mem_of_getElem? (i := 4) rfl) inBody
    · rw [parse_shadowedText]
      exact List.mem_cons_self
  · have listed : mentions (parse .javaScript shadowedText.toList) =
        [.leaf .identifier ⟨38, 39⟩, .leaf .identifier ⟨40, 43⟩, .leaf .identifier ⟨45, 48⟩] := by
      rw [parse_shadowedText]
      rfl
    have mentioned : Tree.leaf .identifier ⟨40, 43⟩ ∈ mentions (parse .javaScript shadowedText.toList) := by
      rw [listed]
      exact List.mem_cons_of_mem _ List.mem_cons_self
    have callees : ∀ call ∈ (parse .javaScript shadowedText.toList).all, call.kind = .call →
        call.children.head?.map (·.span) = some ⟨45, 48⟩ := by
      decide +kernel
    have free : ¬ IsCallee (parse .javaScript shadowedText.toList) (.leaf .identifier ⟨40, 43⟩) := by
      rintro ⟨call, member, kind, applied⟩
      have span := callees call member kind
      rw [applied] at span
      cases span
    obtain ⟨wide, binds, before, behind⟩ := scoping.covers _ _ mentioned free declares_shadowedText
    exact resolves.unshadowed ⟨_, wide, binds, by decide +kernel, Nat.le_trans before (by decide),
      Nat.le_trans (by decide) behind⟩

end TypedLiterals
