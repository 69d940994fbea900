import RecordLang.Program.Tree

/-!
# Trees up to places

`unplaced` forgets where the nodes of a tree stand in the text. Two trees are the same up to their
places if they are equal without them.
-/

namespace RecordLang

def Ident.unplaced (x : Ident) : Ident := ⟨x.name, default⟩

mutual

def TypeExpr.unplaced : TypeExpr → TypeExpr
  | .named name optional _ => .named name optional default
  | .function params result _ => .function (unplacedTypes params) result.unplaced default

def unplacedTypes : List TypeExpr → List TypeExpr
  | [] => []
  | t :: ts => t.unplaced :: unplacedTypes ts

end

def TypedName.unplaced (x : TypedName) : TypedName := ⟨x.name.unplaced, x.type.unplaced, default⟩

mutual

def Expr.unplaced : Expr → Expr
  | .mk form _ type => .mk form.unplaced default type

def Form.unplaced : Form → Form
  | .literal l => .literal l
  | .variable x => .variable x
  | .group e => .group e.unplaced
  | .unary op e => .unary op e.unplaced
  | .binary l op r => .binary l.unplaced op r.unplaced
  | .logical l op r => .logical l.unplaced op r.unplaced
  | .function params result body =>
    .function (params.map TypedName.unplaced) result.unplaced body.unplaced
  | .call f args => .call f.unplaced (unplacedArgs args)
  | .get e x => .get e.unplaced x.unplaced
  | .record name fields => .record name.unplaced (unplacedFields fields)

def unplacedArgs : List Expr → List Expr
  | [] => []
  | e :: es => e.unplaced :: unplacedArgs es

def unplacedFields : List (Ident × Expr) → List (Ident × Expr)
  | [] => []
  | (x, e) :: fs => (x.unplaced, e.unplaced) :: unplacedFields fs

def Stmt.unplaced : Stmt → Stmt
  | .expr e _ => .expr e.unplaced default
  | .let_ x type none _ => .let_ x.unplaced type.unplaced none default
  | .let_ x type (some e) _ => .let_ x.unplaced type.unplaced (some e.unplaced) default
  | .block body _ => .block (unplacedAll body) default
  | .if_ e s none _ => .if_ e.unplaced s.unplaced none default
  | .if_ e s (some t) _ => .if_ e.unplaced s.unplaced (some t.unplaced) default
  | .while_ e s _ => .while_ e.unplaced s.unplaced default
  | .struct x fields _ => .struct x.unplaced (fields.map TypedName.unplaced) default
  | .return_ none _ => .return_ none default
  | .return_ (some e) _ => .return_ (some e.unplaced) default

def unplacedAll : List Stmt → List Stmt
  | [] => []
  | s :: ss => s.unplaced :: unplacedAll ss

end

def Program.unplaced (p : Program) : Program := ⟨unplacedAll p.body, default⟩

theorem unplacedTypes_eq_map (ts : List TypeExpr) : unplacedTypes ts = ts.map TypeExpr.unplaced := by
  induction ts with
  | nil => rfl
  | cons t ts ih => rw [unplacedTypes, ih, List.map_cons]

theorem unplacedArgs_eq_map (es : List Expr) : unplacedArgs es = es.map Expr.unplaced := by
  induction es with
  | nil => rfl
  | cons e es ih => rw [unplacedArgs, ih, List.map_cons]

theorem unplacedFields_eq_map (fs : List (Ident × Expr)) :
    unplacedFields fs = fs.map fun f => (f.1.unplaced, f.2.unplaced) := by
  induction fs with
  | nil => rfl
  | cons f fs ih => rw [unplacedFields, ih, List.map_cons]

end RecordLang
