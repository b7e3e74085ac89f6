import Gateware.Proofs.Grammar.Module
import Gateware.Proofs.Lowering.Frames
import Gateware.Proofs.Lowering.Names
import Gateware.Proofs.Naming.Occurrence
import Gateware.Proofs.Printing.Words

/- Names and numbers of a source text are words, and so are those of its Verilog form.

   This file

   1. proves that a fresh name is a word if the name that it was made from is one
      (`isWordOf_freshName`);
   2. says of what is read that it has words wherever a name is declared or a number stands
      (`Legible`), and proves it of every module of a source text (`legible_of_parse`), since names
      and numbers are tokens of the text;
   3. says the same of what is emitted (`Stmt.Worded`, `Item.Worded`, `Module.Worded`) and of a state
      of lowering (`State.Worded`), and proves that lowering keeps it (`contents_worded`,
      `items_worded`);
   4. concludes that a legible module is lowered to one in which all names are words
      (`ModuleOf.Legible.worded`).

   A tree made by hand can have names that are no words; everything about texts that are read back
   assumes that it has none. -/
namespace Gateware

/-! ## Fresh names -/

namespace Lowering

theorem isWordOf_numbered {name : String} (h : IsWordOf .identifier name) (n : Nat) :
    IsWordOf .identifier (numbered name n) := by
  obtain ⟨⟨hne, hall⟩, hkind⟩ := h
  have htext : (numbered name n).toList = name.toList ++ '_' :: (toString n).toList := by simp [numbered, toString]
  have hunderscore : '_' ∈ (numbered name n).toList := by simp [htext]
  refine ⟨⟨by simp [htext], ?_⟩, ?_⟩
  · intro c hc
    rw [htext, List.mem_append, List.mem_cons] at hc
    rcases hc with hc | rfl | hc
    · exact hall c hc
    · decide
    · exact (isWord_toString n).2 c hc
  · -- no keyword has an underscore, and the first character stays as it is
    have hreserved : ∀ p ∈ Grammar.reserved, '_' ∉ p.1.toList := by decide
    have hfirst := ofFirst_of_ofText (.inl rfl) hkind
    rcases Grammar.ofText_cases (numbered name n) with hmem | hofFirst
    · exact absurd hunderscore (hreserved _ hmem)
    · obtain ⟨c, cs, hcs⟩ := List.exists_cons_of_ne_nil hne
      rw [hofFirst, htext, hcs]
      rw [hcs] at hfirst
      exact hfirst

theorem isWordOf_freshName {name : String} (h : IsWordOf .identifier name) (used : List String) :
    IsWordOf .identifier (freshName used name) := by
  unfold freshName
  split
  · obtain ⟨k, -, heq, -⟩ := firstFree_spec used name used.length 1
    rw [heq]
    exact isWordOf_numbered h (1 + k)
  · exact h

end Lowering

/-! ## What is read -/

/-- An expression of names, numbers and operators, in which numbers are words. -/
def Expr.Legible : Expr → Prop
  | .ident _ => True
  | .literal lit => IsWordOf .literal lit.value
  | .binary _ lhs rhs _ => lhs.Legible ∧ rhs.Legible
  | .malformed _ | .paren .. | .call .. => False

namespace Stmt

mutual

/-- Declared names are words, and expressions are legible. -/
def Legible : Stmt → Prop
  | .decl (.signal s) _ => IsWordOf .identifier s.name.name
  | .assign _ _ rhs _ => rhs.Legible
  | .sequence _ inner _ => inner.Legible
  | .conditional cond body alternative _ => cond.Legible ∧ body.Legible ∧ alternativeLegible alternative
  | .block ⟨stmts, _, _⟩ => allLegible stmts
  | _ => True

def allLegible : List Stmt → Prop
  | [] => True
  | s :: ss => s.Legible ∧ allLegible ss

def alternativeLegible : Option Stmt → Prop
  | none => True
  | some s => s.Legible

end

end Stmt

/-- Declared names and the name of the module are words, and expressions are legible. -/
structure ModuleOf.Legible (m : Module) : Prop where
  name : IsWordOf .identifier m.name.name
  ports : ∀ p ∈ m.ports, IsWordOf .identifier p.signal.name.name
  body : Stmt.allLegible m.body.stmts

namespace Grammar

theorem Term.legible_toExpr : ∀ (t : Term), AllRead t.tokens → t.toExpr.Legible
  | .name w, _ => trivial
  | .number w, h => h.isWordOf w (by simp [Term.tokens]) (.inr rfl)
  | .group opening inner closing, h => inner.legible_toExpr fun t ht => h t (by simp [Term.tokens, ht])
  | .join lhs sign rhs, h =>
    ⟨lhs.legible_toExpr fun t ht => h t (by simp [Term.tokens, ht]),
      rhs.legible_toExpr fun t ht => h t (by simp [Term.tokens, ht])⟩

namespace StmtTree

mutual

theorem legible_value : ∀ (x : StmtTree), AllRead x.tokens → x.value.Legible
  | .assign target symbol value semicolon, h => value.legible_toExpr fun t ht => h t (by simp [tokens, ht])
  | .conditional word cond body, h =>
    ⟨cond.legible_toExpr fun t ht => h t (by simp [tokens, ht]),
      body.legible_value fun t ht => h t (by simp [tokens, ht]), trivial⟩
  | .choice word cond body other alternative, h =>
    ⟨cond.legible_toExpr fun t ht => h t (by simp [tokens, ht]),
      body.legible_value fun t ht => h t (by simp [tokens, ht]),
      alternative.legible_value fun t ht => h t (by simp [tokens, ht])⟩
  | .block opening stmts closing, h => legible_valueAll stmts fun t ht => h t (by simp [tokens, ht])
  | .decl storage tail semicolon, h => h.isWordOf tail.name (by simp [tokens, TailTree.tokens]) (.inl rfl)
  | .sequence clock inner, h => inner.legible_value fun t ht => h t (by simp [tokens, ht])

theorem legible_valueAll : ∀ (xs : List StmtTree), AllRead (tokensAll xs) → Stmt.allLegible (valueAll xs)
  | [], _ => trivial
  | x :: xs, h =>
    ⟨x.legible_value fun t ht => h t (by simp [tokensAll, ht]),
      legible_valueAll xs fun t ht => h t (by simp [tokensAll, ht])⟩

end

end StmtTree

theorem PortsTree.subset_tokens {x : PortsTree} {y : PortTree} (h : y ∈ x.toList) : y.tokens ⊆ x.tokens := by
  intro t ht
  unfold toList at h
  cases hports : x.ports with
  | none => simp [hports] at h
  | some p =>
    obtain ⟨first, others⟩ := p
    simp only [hports, Option.map_some, Option.getD_some, List.mem_cons, List.mem_map] at h
    simp only [tokens, hports, Option.map_some, Option.getD_some, separated, List.mem_cons, List.mem_append,
      List.mem_flatMap]
    rcases h with rfl | ⟨o, ho, rfl⟩
    · exact .inr (.inl (.inl ht))
    · exact .inr (.inl (.inr ⟨o, ho, .inr ht⟩))

theorem ModuleTree.legible_value {x : ModuleTree} (h : AllRead x.tokens) : x.value.Legible := by
  refine ⟨h.isWordOf x.name (by simp [tokens]) (.inl rfl), ?_, ?_⟩
  · intro p hp
    obtain ⟨y, hy, rfl⟩ := List.mem_map.mp hp
    have hmem : y.signal.tail.name.token ∈ x.ports.tokens :=
      PortsTree.subset_tokens hy (by simp [PortTree.tokens, SignalTree.tokens, TailTree.tokens])
    exact h.isWordOf y.signal.tail.name (by simp [tokens, hmem]) (.inl rfl)
  · exact StmtTree.legible_valueAll x.stmts fun t ht => h t (by simp [tokens, StmtTree.tokens, ht])

end Grammar

theorem legible_of_parse {source : String} {ms : List Module} (h : parse source = .ok ms) : ∀ m ∈ ms, m.Legible := by
  obtain ⟨f, hf, -, rfl⟩ := parse_eq_ok_iff.mp h
  intro m hm
  obtain ⟨x, hx, rfl⟩ := List.mem_map.mp hm
  apply Grammar.ModuleTree.legible_value
  intro t ht
  refine ⟨source, ?_⟩
  rw [← hf.tokens_eq]
  exact List.mem_flatMap.mpr ⟨x, hx, ht⟩

/-! ## What is lowered -/

namespace Verilog

mutual

/-- All names and numbers of a statement are words. -/
def Stmt.Worded : Stmt → Prop
  | .blocking target value => IsWordOf .identifier target ∧ ∃ u, value.Spelled u
  | .nonblocking target value => IsWordOf .identifier target ∧ ∃ u, value.Spelled u
  | .block body => Stmt.allWorded body
  | .conditional cond body others otherwise =>
    (∃ u, cond.Spelled u) ∧ Stmt.allWorded body ∧ Stmt.othersWorded others ∧ Stmt.otherwiseWorded otherwise

def Stmt.allWorded : List Stmt → Prop
  | [] => True
  | x :: xs => x.Worded ∧ Stmt.allWorded xs

def Stmt.othersWorded : List (Expr × List Stmt) → Prop
  | [] => True
  | (cond, body) :: others => (∃ u, cond.Spelled u) ∧ Stmt.allWorded body ∧ Stmt.othersWorded others

def Stmt.otherwiseWorded : Option (List Stmt) → Prop
  | none => True
  | some body => Stmt.allWorded body

end

def Item.Worded : Item → Prop
  | .declaration d => IsWordOf .identifier d.name
  | .assign target value => IsWordOf .identifier target ∧ ∃ u, value.Spelled u
  | .register trigger target value =>
    IsWordOf .identifier trigger.clock ∧ IsWordOf .identifier target ∧ ∃ u, value.Spelled u
  | .always sensitivity body =>
    (∀ name ∈ sensitivity.names, IsWordOf .identifier name) ∧ Stmt.allWorded body

/-- All names and numbers of a Verilog module are words. -/
structure Module.Worded (v : Module) : Prop where
  name : IsWordOf .identifier v.name
  ports : ∀ p ∈ v.ports, IsWordOf .identifier p.declaration.name
  hoisted : ∀ d ∈ v.hoisted, IsWordOf .identifier d.name
  items : ∀ item ∈ v.items, item.Worded

end Verilog

namespace Lowering

/-- Names in reach and names of hoisted declarations are words. -/
structure State.Worded (s : State) : Prop where
  scope : ∀ frame ∈ s.scope.frames, ∀ b ∈ frame, IsWordOf .identifier b.emitted
  hoisted : ∀ d ∈ s.hoisted, IsWordOf .identifier d.name

section
variable {s s' : State}

theorem State.Worded.lookup (h : s.Worded) {name : String} {b : Binding} (hb : s.scope.lookup name = some b) :
    IsWordOf .identifier b.emitted :=
  State.InReach.lookup (p := fun b => IsWordOf .identifier b.emitted) h.scope hb

theorem State.Worded.enter (h : s.Worded) : State.Worded { s with scope := s.scope.enter } :=
  ⟨State.InReach.enter h.scope, h.hoisted⟩

theorem State.Worded.exit (h : s.Worded) : State.Worded { s with scope := s.scope.exit } := by
  refine ⟨?_, h.hoisted⟩
  intro frame hframe
  apply h.scope frame
  change frame ∈ s.scope.exit.frames at hframe
  unfold Scope.exit at hframe
  split at hframe
  · exact hframe
  · rename_i henclosing
    rw [Scope.frames, henclosing]
    exact List.mem_cons_of_mem _ hframe

theorem State.Worded.declared (h : s.Worded) {signal : Signal} (hname : IsWordOf .identifier signal.name.name) :
    (s.declared signal).Worded :=
  ⟨State.InReach.declared h.scope (isWordOf_freshName hname s.used), h.hoisted⟩

/-- A legible expression is printed with words. -/
theorem State.Worded.spelled (h : s.Worded) : ∀ {e : Expr} {v : Verilog.Expr}, e.Legible →
    e.lower s.scope = .ok v → ∃ u, v.Spelled u
  | .ident id, v, _, hv => by
    obtain ⟨b, hb, rfl⟩ := lower_ident.mp hv
    exact ⟨_, .name (h.lookup hb)⟩
  | .literal lit, v, he, hv => by
    obtain rfl := lower_literal.mp hv
    exact ⟨_, .literal he⟩
  | .binary op lhs rhs pos, v, he, hv => by
    obtain ⟨op', -, l, hl, r, hr, rfl⟩ := lower_binary.mp hv
    obtain ⟨u, hu⟩ := h.spelled he.1 hl
    obtain ⟨w, hw⟩ := h.spelled he.2 hr
    exact ⟨_, .binary op' hu hw⟩
  | .malformed pos, _, he, _ => absurd he (by simp [Expr.Legible])
  | .paren inner start stop, _, he, _ => absurd he (by simp [Expr.Legible])
  | .call func args pos, _, he, _ => absurd he (by simp [Expr.Legible])

theorem State.Worded.inFrame {α : Type} {x : Lowering α} {a : α} {p : α → Prop} (h : s.Worded)
    (hv : Yields (Lowering.inFrame x) s a s') (hx : ∀ t t', t.Worded → Yields x t a t' → t'.Worded ∧ p a) :
    s'.Worded ∧ p a := by
  obtain ⟨s₁, hs₁, rfl⟩ := yields_inFrame.mp hv
  obtain ⟨hworded, ha⟩ := hx _ _ h.enter hs₁
  exact ⟨hworded.exit, ha⟩

theorem worded_declare {d : Decl} {pos : Position} {line : Verilog.Declaration} (h : s.Worded)
    (hd : (Stmt.decl d pos).Legible) (hv : Yields (declare d pos) s line s') :
    s'.Worded ∧ IsWordOf .identifier line.name := by
  obtain ⟨signal, rfl, hsignal⟩ := yields_declare.mp hv
  obtain ⟨-, rfl, rfl⟩ := yields_declareSignal.mp hsignal
  exact ⟨h.declared hd, isWordOf_freshName hd s.used⟩

theorem allWorded_append {vs ws : List Verilog.Stmt} (hvs : Verilog.Stmt.allWorded vs)
    (hws : Verilog.Stmt.allWorded ws) : Verilog.Stmt.allWorded (vs ++ ws) := by
  induction vs with
  | nil => exact hws
  | cons v vs ih => exact ⟨hvs.1, ih hvs.2⟩

end

mutual

theorem contents_worded (procedure : Procedure) : ∀ (x : Stmt) {s s' : State} {vs : List Verilog.Stmt}, x.Legible →
    s.Worded → Yields (contents procedure x) s vs s' → s'.Worded ∧ Verilog.Stmt.allWorded vs
  | .decl d pos, s, s', vs, hx, h, hv => by
    simp only [contents, yields_bind, yields_modify, yields_pure] at hv
    obtain ⟨line, s₁, hline, _, _, rfl, rfl, rfl⟩ := hv
    obtain ⟨hworded, hname⟩ := worded_declare h hx hline
    refine ⟨⟨hworded.scope, ?_⟩, trivial⟩
    intro d' hd'
    rcases List.mem_append.mp hd' with hd' | hd'
    · exact hworded.hoisted d' hd'
    · rw [List.mem_singleton.mp hd']
      exact hname
  | .assign kind lhs rhs pos, s, s', vs, hx, h, hv => by
    simp only [contents, yields_bind, yields_pure] at hv
    obtain ⟨v, s₁, hv, rfl, rfl⟩ := hv
    obtain ⟨target, value, htarget, hvalue, rfl, -, hkind⟩ := yields_procedural.mp hv
    have hworded := And.intro (h.lookup htarget) (h.spelled hx hvalue)
    cases kind with
    | plain =>
      subst hkind
      exact ⟨h, hworded, trivial⟩
    | registered =>
      obtain ⟨-, rfl⟩ := hkind
      exact ⟨h, hworded, trivial⟩
  | .conditional cond body alternative pos, s, s', vs, hx, h, hv => by
    obtain ⟨hcond, hbody, halternative⟩ := hx
    simp only [contents, yields_bind, yields_expression, yields_pure] at hv
    obtain ⟨c, _, ⟨hc, rfl⟩, ws, s₁, hws, b, s₂, hbranches, rfl, rfl⟩ := hv
    obtain ⟨h₁, hwords⟩ := h.inFrame hws fun _ _ ht hws => contents_worded procedure body hbody ht hws
    obtain ⟨h₂, hothers, hotherwise⟩ := branches_worded procedure alternative halternative h₁ hbranches
    exact ⟨h₂, ⟨h.spelled hcond hc, hwords, hothers, hotherwise⟩, trivial⟩
  | .block ⟨stmts, start, stop⟩, s, s', vs, hx, h, hv => by
    rw [contents] at hv
    exact allContents_worded procedure stmts hx h hv
  | .sequence clock inner pos, _, _, _, _, _, hv => by rw [contents] at hv; exact absurd hv not_yields_fail
  | .malformed pos, _, _, _, _, _, hv => by rw [contents] at hv; exact absurd hv not_yields_fail
  | .expr e pos, _, _, _, _, _, hv => by rw [contents] at hv; exact absurd hv not_yields_fail
  | .result value pos, _, _, _, _, _, hv => by rw [contents] at hv; exact absurd hv not_yields_fail
  | .loop cond body pos, _, _, _, _, _, hv => by rw [contents] at hv; exact absurd hv not_yields_fail

theorem allContents_worded (procedure : Procedure) : ∀ (xs : List Stmt) {s s' : State} {vs : List Verilog.Stmt},
    Stmt.allLegible xs → s.Worded → Yields (allContents procedure xs) s vs s' →
    s'.Worded ∧ Verilog.Stmt.allWorded vs
  | [], s, s', vs, _, h, hv => by
    rw [allContents] at hv
    obtain ⟨rfl, rfl⟩ := yields_pure.mp hv
    exact ⟨h, trivial⟩
  | x :: xs, s, s', vs, hxs, h, hv => by
    simp only [allContents, yields_bind, yields_pure] at hv
    obtain ⟨ws, s₁, hfirst, ws', s₂, hothers, rfl, rfl⟩ := hv
    have hx : s₁.Worded ∧ Verilog.Stmt.allWorded ws := by
      unfold delimit at hfirst
      split at hfirst
      · obtain ⟨us, s₂, hus, hpure⟩ := yields_bind.mp hfirst
        obtain ⟨rfl, rfl⟩ := yields_pure.mp hpure
        obtain ⟨h₁, hwords⟩ := h.inFrame hus fun _ _ ht hus => contents_worded procedure x hxs.1 ht hus
        exact ⟨h₁, hwords, trivial⟩
      · exact contents_worded procedure x hxs.1 h hfirst
    obtain ⟨h₂, hwords⟩ := allContents_worded procedure xs hxs.2 hx.1 hothers
    exact ⟨h₂, allWorded_append hx.2 hwords⟩

theorem branches_worded (procedure : Procedure) : ∀ (x : Option Stmt) {s s' : State} {b : Branches},
    Stmt.alternativeLegible x → s.Worded → Yields (branches procedure x) s b s' →
    s'.Worded ∧ Verilog.Stmt.othersWorded b.1 ∧ Verilog.Stmt.otherwiseWorded b.2
  | none, s, s', b, _, h, hv => by
    rw [branches] at hv
    obtain ⟨rfl, rfl⟩ := yields_pure.mp hv
    exact ⟨h, trivial, trivial⟩
  | some x, s, s', b, hx, h, hv => by
    have hcontents {t t' : State} {vs : List Verilog.Stmt} (ht : t.Worded)
        (hvs : Yields (contents procedure x) t vs t') := contents_worded procedure x hx ht hvs
    cases x with
    | conditional cond body alternative pos =>
      obtain ⟨hcond, hbody, halternative⟩ := hx
      simp only [branches, yields_bind, yields_expression, yields_pure] at hv
      obtain ⟨c, _, ⟨hc, rfl⟩, ws, s₁, hws, b', s₂, hbranches, rfl, rfl⟩ := hv
      obtain ⟨h₁, hwords⟩ := h.inFrame hws fun _ _ ht hws => contents_worded procedure body hbody ht hws
      obtain ⟨h₂, hothers, hotherwise⟩ := branches_worded procedure alternative halternative h₁ hbranches
      exact ⟨h₂, ⟨h.spelled hcond hc, hwords, hothers⟩, hotherwise⟩
    | _ =>
      simp only [branches, yields_bind, yields_pure] at hv
      obtain ⟨ws, s₁, hws, rfl, rfl⟩ := hv
      obtain ⟨h₁, hwords⟩ := h.inFrame hws fun _ _ ht hws => hcontents ht hws
      exact ⟨h₁, trivial, hwords⟩

end

mutual

theorem items_worded : ∀ (x : Stmt) {s s' : State} {is : List Verilog.Item}, x.Legible → s.Worded →
    Yields (items x) s is s' → s'.Worded ∧ ∀ item ∈ is, item.Worded
  | .decl d pos, s, s', is, hx, h, hv => by
    simp only [items, yields_bind, yields_pure] at hv
    obtain ⟨line, s₁, hline, rfl, rfl⟩ := hv
    obtain ⟨hworded, hname⟩ := worded_declare h hx hline
    exact ⟨hworded, List.forall_mem_singleton.mpr hname⟩
  | .assign kind lhs rhs pos, s, s', is, hx, h, hv => by
    simp only [items, yields_bind, yields_pure] at hv
    obtain ⟨item, s₁, hitem, rfl, rfl⟩ := hv
    obtain ⟨target, value, htarget, hvalue, rfl, hkind⟩ := yields_continuous.mp hitem
    refine ⟨h, List.forall_mem_singleton.mpr ?_⟩
    cases kind with
    | plain =>
      obtain ⟨-, rfl⟩ := hkind
      exact ⟨h.lookup htarget, h.spelled hx hvalue⟩
    | registered =>
      obtain ⟨-, clock, t, -, ht, rfl⟩ := hkind
      obtain ⟨b, hb, rfl, -⟩ := yields_trigger.mp ht
      exact ⟨h.lookup hb, h.lookup htarget, h.spelled hx hvalue⟩
  | .sequence clock inner pos, s, s', is, hx, h, hv => by
    simp only [items, yields_bind, yields_trigger, yields_pure] at hv
    obtain ⟨t, _, ⟨b, hb, rfl, rfl⟩, body, s₁, hbody, rfl, rfl⟩ := hv
    obtain ⟨h₁, hwords⟩ := h.inFrame hbody fun _ _ ht hbody => contents_worded .clocked inner hx ht hbody
    exact ⟨h₁, List.forall_mem_singleton.mpr ⟨List.forall_mem_singleton.mpr (h.lookup hb), hwords⟩⟩
  | .conditional cond body alternative pos, s, s', is, hx, h, hv => by
    rw [items] at hv
    obtain ⟨vs, s₁, hvs, hpure⟩ := yields_bind.mp hv
    obtain ⟨rfl, rfl⟩ := yields_pure.mp hpure
    obtain ⟨h₁, hwords⟩ := contents_worded .combinational _ hx h hvs
    exact ⟨h₁, List.forall_mem_singleton.mpr ⟨fun _ hn => absurd hn List.not_mem_nil, hwords⟩⟩
  | .block ⟨stmts, start, stop⟩, s, s', is, hx, h, hv => by
    rw [items] at hv
    exact h.inFrame (p := fun is => ∀ item ∈ is, item.Worded) hv fun _ _ ht his => allItems_worded stmts hx ht his
  | .malformed pos, _, _, _, _, _, hv => by rw [items] at hv; exact absurd hv not_yields_fail
  | .expr e pos, _, _, _, _, _, hv => by rw [items] at hv; exact absurd hv not_yields_fail
  | .result value pos, _, _, _, _, _, hv => by rw [items] at hv; exact absurd hv not_yields_fail
  | .loop cond body pos, _, _, _, _, _, hv => by rw [items] at hv; exact absurd hv not_yields_fail

theorem allItems_worded : ∀ (xs : List Stmt) {s s' : State} {is : List Verilog.Item}, Stmt.allLegible xs →
    s.Worded → Yields (allItems xs) s is s' → s'.Worded ∧ ∀ item ∈ is, item.Worded
  | [], s, s', is, _, h, hv => by
    rw [allItems] at hv
    obtain ⟨rfl, rfl⟩ := yields_pure.mp hv
    exact ⟨h, fun _ hitem => absurd hitem List.not_mem_nil⟩
  | x :: xs, s, s', is, hxs, h, hv => by
    simp only [allItems, yields_bind, yields_pure] at hv
    obtain ⟨is₁, s₁, hfirst, is₂, s₂, hothers, rfl, rfl⟩ := hv
    obtain ⟨h₁, hfirst⟩ := items_worded x hxs.1 h hfirst
    obtain ⟨h₂, hothers⟩ := allItems_worded xs hxs.2 h₁ hothers
    exact ⟨h₂, List.forall_mem_append.mpr ⟨hfirst, hothers⟩⟩

end

theorem ports_worded {ps : List Port} {vs : List Verilog.Port} {s s' : State}
    (hps : ∀ p ∈ ps, IsWordOf .identifier p.signal.name.name) (h : s.Worded) (hv : Yields (ports ps) s vs s') :
    s'.Worded ∧ ∀ v ∈ vs, IsWordOf .identifier v.declaration.name := by
  induction ps generalizing s vs with
  | nil =>
    obtain ⟨rfl, rfl⟩ := yields_pure.mp hv
    exact ⟨h, fun _ hv => absurd hv List.not_mem_nil⟩
  | cons p ps ih =>
    simp only [ports, yields_bind, yields_port, yields_pure] at hv
    obtain ⟨_, _, ⟨-, rfl, rfl⟩, vs, s₁, hothers, rfl, rfl⟩ := hv
    have hname := hps p List.mem_cons_self
    obtain ⟨h₁, hvs⟩ := ih (fun q hq => hps q (List.mem_cons_of_mem _ hq)) (h.declared hname) hothers
    exact ⟨h₁, List.forall_mem_cons.mpr ⟨isWordOf_freshName hname s.used, hvs⟩⟩

end Lowering

open Lowering in
theorem ModuleOf.Legible.worded {m : Module} (hm : m.Legible) {v : Verilog.Module} {s' : State}
    (h : Yields (Lowering.module m) State.initial v s') : v.Worded := by
  obtain ⟨ps, s₁, is, s₂, hports, hitems, rfl, rfl⟩ := yields_module.mp h
  have hinitial : State.initial.Worded := ⟨initial_inReach _, fun _ hd => absurd hd List.not_mem_nil⟩
  obtain ⟨h₁, hports⟩ := ports_worded hm.ports hinitial.enter hports
  obtain ⟨h₂, hitems⟩ := allItems_worded m.body.stmts hm.body h₁.enter hitems
  exact ⟨hm.name, hports, h₂.hoisted, hitems⟩

end Gateware
