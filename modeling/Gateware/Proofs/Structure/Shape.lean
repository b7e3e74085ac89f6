import Gateware.Proofs.Printing.Text

/- The statements of a Verilog text, read back from its lines.

   This file

   1. defines trees of statements in which expressions are texts (`Shape`);
   2. defines a reader of lines that goes by nesting alone (`readShapes`): a `begin` is matched with
      its `end` on a stack, and an `else` goes on with the condition whose `end` stands before it on
      the line;
   3. gives each Verilog statement its shape (`Stmt.shape`);
   4. proves by recursion on statements that their lines are read as their shapes
      (`Stmt.reads_forms`), whatever has been read before them; further conditions are kept with
      those before them until it is known what comes last (`Stmt.reads_othersForms`). -/
namespace Gateware

/-- A statement, with its expressions as texts. -/
inductive Shape where
  | declaration (isRegister : Bool) (top : Option Nat) (name : String)
  | assign (kind : AssignKind) (target value : String)
  /-- Statements that run on the edge of a clock. -/
  | sequence (trigger : Verilog.Trigger) (body : List Shape)
  /-- A condition, the statements it guards, and a condition or a block to go on with. -/
  | conditional (cond : String) (body : List Shape) (alternative : Option Shape)
  | block (body : List Shape)
  deriving Repr

/-- A condition with a body that comes after others in a chain, the latest first. -/
def Shape.chain : List (String × List Shape) → Shape → Shape
  | [], shape => shape
  | (cond, body) :: earlier, shape => chain earlier (.conditional cond body (some shape))

namespace Verilog

/-! ## Reading by nesting -/

/-- What a `begin` that has no `end` yet belongs to. -/
inductive Enclosure where
  | procedure (sensitivity : Sensitivity)
  /-- A procedure without a `begin`, which holds the next line. -/
  | single
  | block
  /-- The branch of a condition, after those of earlier conditions, the latest first. -/
  | branch (earlier : List (String × List Shape)) (cond : String)
  /-- What runs if none of these conditions holds. -/
  | otherwise (earlier : List (String × List Shape)) (cond : String) (body : List Shape)

/-- What has been read so far: statements where nothing is open, or those after the innermost
`begin` that is open. -/
inductive Reading where
  | top (shapes : List Shape)
  | inside (outer : Reading) (o : Enclosure) (shapes : List Shape)

namespace Reading

def add : Reading → Shape → Reading
  | .top shapes, shape => .top (shapes ++ [shape])
  | .inside outer o shapes, shape => .inside outer o (shapes ++ [shape])

/-- The statement between a `begin` and its `end`. A procedure that follows its inputs holds
one condition. -/
def closed : Enclosure → List Shape → Option Shape
  | .procedure (.trigger t), body => some (.sequence t body)
  | .procedure .inputs, [.conditional cond body alternative] => some (.conditional cond body alternative)
  | .procedure .inputs, _ => none
  | .single, _ => none
  | .block, body => some (.block body)
  | .branch earlier cond, body => some (.chain earlier (.conditional cond body none))
  | .otherwise earlier cond first, body => some (.chain earlier (.conditional cond first (some (.block body))))

/-- Reads a line where nothing is open: a declaration, a continuous assignment or the first
line of a procedure. -/
def stepTop (shapes : List Shape) : Form → Option Reading
  | .declaration isRegister bit name => some (.top (shapes ++ [.declaration isRegister bit name]))
  | .assign target value => some (.top (shapes ++ [.assign .plain target value]))
  | .always sensitivity true => some (.inside (.top shapes) (.procedure sensitivity) [])
  | .always (.trigger _) false => some (.inside (.top shapes) .single [])
  | _ => none

/-- Reads a line after a `begin`: an assignment, or a line that opens or closes something. -/
def stepInside (outer : Reading) (o : Enclosure) (shapes : List Shape) : Form → Option Reading
  | .blocking target value => some (.inside outer o (shapes ++ [.assign .plain target value]))
  | .nonblocking target value => some (.inside outer o (shapes ++ [.assign .registered target value]))
  | .beginBlock => some (.inside (.inside outer o shapes) .block [])
  | .condition cond => some (.inside (.inside outer o shapes) (.branch [] cond) [])
  | .otherCondition next =>
    match o with
    | .branch earlier cond => some (.inside outer (.branch ((cond, shapes) :: earlier) next) [])
    | _ => none
  | .otherwise =>
    match o with
    | .branch earlier cond => some (.inside outer (.otherwise earlier cond shapes) [])
    | _ => none
  | .endBlock => (closed o shapes).map outer.add
  | _ => none

def step : Reading → Form → Option Reading
  | .top shapes, f => stepTop shapes f
  | .inside outer .single _, .nonblocking target value => some (outer.add (.assign .registered target value))
  | .inside _ .single _, _ => none
  | .inside outer o shapes, f => stepInside outer o shapes f

end Reading

/-- The statements of lines in a row, in which every `begin` has its `end`. -/
def readShapes (fs : List Form) : Option (List Shape) :=
  match fs.foldlM Reading.step (.top []) with
  | some (.top shapes) => some shapes
  | _ => none

/-! ## Shapes of statements -/

mutual

/-- The shape of a statement. Further conditions are alternatives of the conditions before
them. -/
def Stmt.shape : Stmt → Shape
  | .blocking target value => .assign .plain target value.text
  | .nonblocking target value => .assign .registered target value.text
  | .block body => .block (Stmt.shapes body)
  | .conditional cond body others otherwise =>
    .conditional cond.text (Stmt.shapes body) (Stmt.othersShape (Stmt.otherwiseShape otherwise) others)

def Stmt.shapes : List Stmt → List Shape
  | [] => []
  | x :: xs => x.shape :: Stmt.shapes xs

/-- The shape of further conditions, before what runs if none of them holds. -/
def Stmt.othersShape (last : Option Shape) : List (Expr × List Stmt) → Option Shape
  | [] => last
  | (cond, body) :: others => some (.conditional cond.text (Stmt.shapes body) (Stmt.othersShape last others))

def Stmt.otherwiseShape : Option (List Stmt) → Option Shape
  | none => none
  | some body => some (.block (Stmt.shapes body))

end

theorem Stmt.shapes_append (vs ws : List Stmt) : Stmt.shapes (vs ++ ws) = Stmt.shapes vs ++ Stmt.shapes ws := by
  induction vs with
  | nil => rfl
  | cons v vs ih => simp only [List.cons_append, Stmt.shapes, ih]

/-! ## Reading what was printed -/

/-- Lines lead from one reading to another. -/
def Reads (r : Reading) (fs : List Form) (r' : Reading) : Prop := fs.foldlM Reading.step r = some r'

section
variable {r r₁ r' : Reading} {fs gs : List Form}

theorem reads_nil : Reads r [] r := rfl

theorem Reads.append (h : Reads r fs r₁) (h' : Reads r₁ gs r') : Reads r (fs ++ gs) r' := by
  unfold Reads at *
  rw [List.foldlM_append, h]
  exact h'

theorem Reads.cons {f : Form} (hstep : r.step f = some r₁) (h : Reads r₁ fs r') : Reads r (f :: fs) r' := by
  unfold Reads at *
  rw [List.foldlM_cons, hstep]
  exact h

theorem reads_singleton {f : Form} (hstep : r.step f = some r') : Reads r [f] r' := .cons hstep reads_nil

end

/-- After a `begin`, all lines are read alike. -/
theorem Reading.step_inside {o : Enclosure} (ho : o ≠ .single) (outer : Reading) (shapes : List Shape) (f : Form) :
    (Reading.inside outer o shapes).step f = stepInside outer o shapes f := by
  cases o with
  | single => exact absurd rfl ho
  | _ => rfl

mutual

theorem Stmt.reads_forms : ∀ (x : Stmt) {o : Enclosure} (outer : Reading) (shapes : List Shape), o ≠ .single →
    Reads (.inside outer o shapes) x.forms (.inside outer o (shapes ++ [x.shape]))
  | .blocking target value, o, outer, shapes, ho => reads_singleton (Reading.step_inside ho outer shapes _)
  | .nonblocking target value, o, outer, shapes, ho => reads_singleton (Reading.step_inside ho outer shapes _)
  | .block body, o, outer, shapes, ho => by
    rw [Stmt.forms, Stmt.shape]
    have hbody := Stmt.reads_allForms body (o := .block) (.inside outer o shapes) [] (by simp)
    exact .cons (Reading.step_inside ho outer shapes _) (hbody.append (reads_singleton rfl))
  | .conditional cond body others otherwise, o, outer, shapes, ho => by
    rw [Stmt.forms, Stmt.shape]
    have hbody := Stmt.reads_allForms body (o := .branch [] cond.text) (.inside outer o shapes) [] (by simp)
    obtain ⟨earlier, cond', body', hothers, hchain⟩ :=
      Stmt.reads_othersForms others [] cond.text (.inside outer o shapes) (Stmt.shapes body)
    have hotherwise := Stmt.reads_otherwiseForms otherwise earlier cond' (.inside outer o shapes) body'
    rw [hchain] at hotherwise
    rw [List.append_assoc]
    exact .cons (Reading.step_inside ho outer shapes _) ((hbody.append hothers).append hotherwise)

theorem Stmt.reads_allForms : ∀ (xs : List Stmt) {o : Enclosure} (outer : Reading) (shapes : List Shape),
    o ≠ .single → Reads (.inside outer o shapes) (Stmt.allForms xs) (.inside outer o (shapes ++ Stmt.shapes xs))
  | [], o, outer, shapes, ho => by
    rw [Stmt.shapes, List.append_nil]
    exact reads_nil
  | x :: xs, o, outer, shapes, ho => by
    have hboth := (x.reads_forms outer shapes ho).append (Stmt.reads_allForms xs outer (shapes ++ [x.shape]) ho)
    rw [List.append_assoc] at hboth
    exact hboth

/-- Further conditions are kept with those before them, until it is known what comes last. -/
theorem Stmt.reads_othersForms : ∀ (others : List (Expr × List Stmt)) (earlier : List (String × List Shape))
    (cond : String) (outer : Reading) (body : List Shape),
    ∃ earlier' cond' body', Reads (.inside outer (.branch earlier cond) body) (Stmt.othersForms others)
        (.inside outer (.branch earlier' cond') body') ∧
      ∀ last, Shape.chain earlier' (.conditional cond' body' last) =
        Shape.chain earlier (.conditional cond body (Stmt.othersShape last others))
  | [], earlier, cond, outer, body => ⟨earlier, cond, body, reads_nil, fun _ => rfl⟩
  | (next, stmts) :: others, earlier, cond, outer, body => by
    have hbody := Stmt.reads_allForms stmts (o := .branch ((cond, body) :: earlier) next.text) outer [] (by simp)
    obtain ⟨earlier', cond', body', hothers, hchain⟩ :=
      Stmt.reads_othersForms others ((cond, body) :: earlier) next.text outer (Stmt.shapes stmts)
    refine ⟨earlier', cond', body', .cons rfl (hbody.append hothers), ?_⟩
    intro last
    rw [hchain, Shape.chain, Stmt.othersShape]

/-- What runs if no condition holds, up to the `end` of the last condition. -/
theorem Stmt.reads_otherwiseForms : ∀ (otherwise : Option (List Stmt)) (earlier : List (String × List Shape))
    (cond : String) (outer : Reading) (body : List Shape),
    Reads (.inside outer (.branch earlier cond) body) (Stmt.otherwiseForms otherwise ++ [.endBlock])
      (outer.add (.chain earlier (.conditional cond body (Stmt.otherwiseShape otherwise))))
  | none, earlier, cond, outer, body => reads_singleton rfl
  | some stmts, earlier, cond, outer, body => by
    have hstmts := Stmt.reads_allForms stmts (o := .otherwise earlier cond body) outer [] (by simp)
    exact .cons rfl (hstmts.append (reads_singleton rfl))

end

-- the `else` is that of the outer condition, whose `end` stands before it
example : readShapes [.always .inputs true, .condition "a", .condition "b", .blocking "q" "a", .endBlock, .otherwise,
    .blocking "q" "b", .endBlock, .endBlock] =
      some [.conditional "a" [.conditional "b" [.assign .plain "q" "a"] none]
        (some (.block [.assign .plain "q" "b"]))] := rfl

end Verilog

end Gateware
