/-
  Databases with constraints, and the statements that change them: SQLite's,
  inside a transaction that enforces foreign keys, where every reference is
  `ON DELETE CASCADE`.

  Rows are inserted with their keys, and a copy does not convert values: one
  between columns of different types is an error.  There are no `REAL` values.
-/
import Mathlib.Tactic

namespace Lib.Sql

/-! ## Databases -/

/-- A value of a column; numbers are integers, there are no reals. -/
inductive Value where
  | null
  | integer (n : ℤ)
  | text (s : String)
  | blob (bytes : List UInt8)
  deriving DecidableEq, Repr

/-- The declared type of a column. -/
inductive Affinity where
  | integer
  | text
  | blob
  deriving DecidableEq, Repr

/-- A row has null in the columns that its table does not have. -/
abbrev Row (Col : Type) := Col → Value

/-- A declared column: its type, whether NULL is refused, its default. -/
structure Column (Col : Type) where
  name : Col
  type : Affinity
  notNull : Bool
  default : Value
  deriving DecidableEq

/-- A `CHECK` that compares a column with a number. -/
inductive Check (Col : Type) where
  | eq (c : Col) (n : ℤ)
  | gt (c : Col) (n : ℤ)
  deriving DecidableEq

/-- What a table is declared as; `key` is its `INTEGER PRIMARY KEY`, and a reference is to the key of
    the table it names. -/
structure Schema (Name Col : Type) where
  columns : List (Column Col)
  key : Col
  autoincrement : Bool
  uniques : List (List Col)
  checks : List (Check Col)
  references : List (Col × Name)
  deriving DecidableEq

/-- An index over columns of a table; a unique one constrains the rows. -/
structure Index (Idx Col : Type) where
  name : Idx
  unique : Bool
  columns : List Col
  deriving DecidableEq

/-- A table with its indexes and its rows; `seq` is its entry of `sqlite_sequence`, 0 while there is
    none. -/
structure Table (Name Idx Col : Type) where
  name : Name
  schema : Schema Name Col
  indexes : List (Index Idx Col)
  rows : List (Row Col)
  seq : ℤ

/-- The tables in the order of the catalog. -/
abbrev Database (Name Idx Col : Type) := List (Table Name Idx Col)

/-! ## Constraints -/

section constraints
variable {Name Idx Col : Type}

/-- Whether a value is an integer. -/
def Value.isInteger : Value → Bool
  | integer _ => true
  | _ => false

/-- The integer of a value, 0 when it is none. -/
def Value.toInt : Value → ℤ
  | integer n => n
  | _ => 0

/-- The column that a check is about. -/
def Check.column : Check Col → Col
  | eq c _ | gt c _ => c

/-- A check passes null; texts and blobs come after all numbers. -/
def Check.holds (r : Row Col) : Check Col → Bool
  | eq c n =>
    match r c with
    | .null => true
    | v => decide (v = .integer n)
  | gt c n =>
    match r c with
    | .integer m => decide (n < m)
    | _ => true

theorem Check.holds_congr {r r' : Row Col} {check : Check Col} (h : r check.column = r' check.column) :
    check.holds r = check.holds r' := by
  cases check with
  | eq c n => simp only [holds, show r c = r' c from h]
  | gt c n => simp only [holds, show r c = r' c from h]

/-- The columns of a table, in their order. -/
def Schema.names (sch : Schema Name Col) : List Col := sch.columns.map Column.name

/-- The columns that the constraints speak of. -/
def Schema.constrained (sch : Schema Name Col) : List Col :=
  sch.key :: (sch.uniques.flatten ++ sch.checks.map Check.column ++ sch.references.map Prod.fst)

/-- The constraints that a row keeps or breaks by itself. -/
structure Schema.Fits (sch : Schema Name Col) (r : Row Col) : Prop where
  notNull : ∀ c ∈ sch.columns, c.notNull = true → r c.name ≠ .null
  key : (r sch.key).isInteger = true
  checks : ∀ check ∈ sch.checks, check.holds r = true

instance {sch : Schema Name Col} {r : Row Col} : Decidable (sch.Fits r) :=
  decidable_of_iff ((∀ c ∈ sch.columns, c.notNull = true → r c.name ≠ .null) ∧
      (r sch.key).isInteger = true ∧ ∀ check ∈ sch.checks, check.holds r = true)
    ⟨fun h => ⟨h.1, h.2.1, h.2.2⟩, fun h => ⟨h.notNull, h.key, h.checks⟩⟩

/-- Two rows with the same values in the columns, none of them null. -/
def Agree (cols : List Col) (r r' : Row Col) : Prop := ∀ c ∈ cols, r c ≠ .null ∧ r c = r' c

instance {cols : List Col} {r r' : Row Col} : Decidable (Agree cols r r') :=
  inferInstanceAs (Decidable (∀ c ∈ cols, r c ≠ .null ∧ r c = r' c))

/-- Rows agree where what a map makes of them agrees, in columns that it keeps. -/
theorem Agree.of_map {cols cols' : List Col} {f : Row Col → Row Col} {r r' : Row Col}
    (h : Agree cols (f r) (f r')) (hsub : ∀ c ∈ cols', c ∈ cols) (hf : ∀ c ∈ cols', ∀ r, f r c = r c) :
    Agree cols' r r' := by
  intro c hc
  obtain ⟨hnull, heq⟩ := h c (hsub c hc)
  rw [hf c hc, hf c hc] at heq
  rw [hf c hc] at hnull
  exact ⟨hnull, heq⟩

/-- The sets of columns in which no two rows agree. -/
def Table.uniqueSets (t : Table Name Idx Col) : List (List Col) :=
  [t.schema.key] :: (t.schema.uniques ++ (t.indexes.filter Index.unique).map Index.columns)

/-- The reference is null, or to a row. -/
def Database.Refers (db : Database Name Idx Col) (r : Row Col) (ref : Col × Name) : Prop :=
  r ref.1 = .null ∨ ∃ t ∈ db, t.name = ref.2 ∧ ∃ p ∈ t.rows, p t.schema.key = r ref.1

instance [DecidableEq Name] {db : Database Name Idx Col} {r : Row Col} {ref : Col × Name} :
    Decidable (db.Refers r ref) :=
  inferInstanceAs (Decidable (_ ∨ ∃ t ∈ db, t.name = ref.2 ∧ ∃ p ∈ t.rows, p t.schema.key = r ref.1))

/-- Constraints and indexes are about columns of the table, and rows have no others. -/
structure Table.Valid (t : Table Name Idx Col) : Prop where
  constrained : ∀ c ∈ t.schema.constrained, c ∈ t.schema.names
  indexed : ∀ i ∈ t.indexes, ∀ c ∈ i.columns, c ∈ t.schema.names
  blank : ∀ r ∈ t.rows, ∀ c, c ∉ t.schema.names → r c = .null
  fits : ∀ r ∈ t.rows, t.schema.Fits r
  unique : ∀ cols ∈ t.uniqueSets, t.rows.Pairwise fun r r' => ¬Agree cols r r'
  seq : t.schema.autoincrement = true → ∀ r ∈ t.rows, (r t.schema.key).toInt ≤ t.seq
  noSeq : t.schema.autoincrement = false → t.seq = 0

/-- Tables have names of their own, each is valid, and no reference dangles. -/
structure Database.Valid (db : Database Name Idx Col) : Prop where
  names : (db.map Table.name).Nodup
  tables : ∀ t ∈ db, t.Valid
  complete : ∀ t ∈ db, ∀ r ∈ t.rows, ∀ ref ∈ t.schema.references, db.Refers r ref

end constraints

/-! ## Statements -/

/-- The statements that schema scripts are made of. -/
inductive Stmt (Name Idx Col : Type) where
  | select
  | pragmaForeignKeys (on : Bool)
  | createTable (n : Name) (ifNotExists : Bool) (schema : Schema Name Col)
  | createIndex (i : Idx) (ifNotExists unique : Bool) (n : Name) (cols : List Col)
  | dropIndexIfExists (i : Idx)
  | renameTable (n n' : Name)
  | addColumn (n : Name) (c : Column Col)
  | insertSelect (n : Name) (into : List Col) (cols : List Col) (source : Name)
  | dropTable (n : Name)

/-- Why a statement fails. -/
inductive Error (Name Idx Col : Type) where
  | tableExists (n : Name)
  | noSuchTable (n : Name)
  | indexExists (i : Idx)
  | columns (n : Name)
  | constraint (n : Name)
  | foreignKey (n : Name)
  | recursionDepth
  deriving DecidableEq, Repr

section statements
variable {Name Idx Col : Type} [DecidableEq Name] [DecidableEq Idx] [DecidableEq Col]

/-- The database after a statement, or why there is none. -/
abbrev Result (Name Idx Col : Type) := Except (Error Name Idx Col) (Database Name Idx Col)

/-- The type of a column, when the table has it. -/
def Schema.type? (sch : Schema Name Col) (c : Col) : Option Affinity :=
  (sch.columns.find? fun column => decide (column.name = c)).map Column.type

/-- The row that has these values, and the defaults in the other columns. -/
def Schema.fill (sch : Schema Name Col) (values : List (Col × Value)) : Row Col := fun c =>
  (values.lookup c).getD
    ((sch.columns.find? fun column => decide (column.name = c)).elim .null Column.default)

namespace Table

/-- Add a row, whose key the counter takes into account. -/
def push (t : Table Name Idx Col) (r : Row Col) : Table Name Idx Col :=
  { t with
    rows := t.rows ++ [r]
    seq := if t.schema.autoincrement then max t.seq (r t.schema.key).toInt else t.seq }

/-- Add a row that keeps the constraints of its table. -/
def insert (t : Table Name Idx Col) (r : Row Col) : Option (Table Name Idx Col) :=
  if t.schema.Fits r ∧ ∀ cols ∈ t.uniqueSets, ∀ r' ∈ t.rows, ¬Agree cols r' r then some (t.push r)
  else none

/-- The row refers to one of the rows of `gone`, given by their tables and keys. -/
def Bound (gone : List (Name × Value)) (t : Table Name Idx Col) (r : Row Col) : Prop :=
  ∃ ref ∈ t.schema.references, ∃ g ∈ gone, g.1 = ref.2 ∧ g.2 = r ref.1

instance {gone : List (Name × Value)} {t : Table Name Idx Col} {r : Row Col} :
    Decidable (t.Bound gone r) :=
  inferInstanceAs (Decidable (∃ ref ∈ t.schema.references, ∃ g ∈ gone, g.1 = ref.2 ∧ g.2 = r ref.1))

/-- The table without the rows that refer to rows of `gone`. -/
def kept (gone : List (Name × Value)) (t : Table Name Idx Col) : Table Name Idx Col :=
  { t with rows := t.rows.filter fun r => decide ¬t.Bound gone r }

/-- The rows that refer to rows of `gone`. -/
def lost (gone : List (Name × Value)) (t : Table Name Idx Col) : List (Name × Value) :=
  (t.rows.filter fun r => decide (t.Bound gone r)).map fun r => (t.name, r t.schema.key)

end Table

namespace Database

/-- The table of this name. -/
def find (db : Database Name Idx Col) (n : Name) : Option (Table Name Idx Col) :=
  List.find? (fun t => decide (t.name = n)) db

/-- Change the table of this name. -/
def modify (db : Database Name Idx Col) (n : Name) (f : Table Name Idx Col → Table Name Idx Col) :
    Database Name Idx Col := db.map fun t => if t.name = n then f t else t

/-- `CREATE TABLE [IF NOT EXISTS]` -/
def createTable (db : Database Name Idx Col) (n : Name) (ifNotExists : Bool)
    (schema : Schema Name Col) : Result Name Idx Col :=
  match db.find n with
  | some _ => if ifNotExists then .ok db else .error (.tableExists n)
  | none =>
    if ∀ c ∈ schema.constrained, c ∈ schema.names then .ok (db ++ [⟨n, schema, [], [], 0⟩])
    else .error (.columns n)

/-- The names of indexes belong to all tables. -/
def indexNames (db : Database Name Idx Col) : List Idx := db.flatMap fun t => t.indexes.map Index.name

/-- `CREATE [UNIQUE] INDEX [IF NOT EXISTS]`: a unique one needs unique rows. -/
def createIndex (db : Database Name Idx Col) (i : Idx) (ifNotExists unique : Bool) (n : Name)
    (cols : List Col) : Result Name Idx Col :=
  match db.find n with
  | none => .error (.noSuchTable n)
  | some t =>
    if i ∈ db.indexNames then
      if ifNotExists then .ok db else .error (.indexExists i)
    else if ¬∀ c ∈ cols, c ∈ t.schema.names then .error (.columns n)
    else if unique = true ∧ ¬t.rows.Pairwise fun r r' => ¬Agree cols r r' then .error (.constraint n)
    else .ok (db.modify n fun t => { t with indexes := t.indexes ++ [⟨i, unique, cols⟩] })

/-- `DROP INDEX IF EXISTS` -/
def dropIndexIfExists (db : Database Name Idx Col) (i : Idx) : Database Name Idx Col :=
  db.map fun t => { t with indexes := t.indexes.filter fun index => decide (index.name ≠ i) }

/-- One name for another. -/
def renamed (n n' m : Name) : Name := if m = n then n' else m

/-- Rename a table, also in the references to it. -/
def renameTable (db : Database Name Idx Col) (n n' : Name) : Result Name Idx Col :=
  match db.find n, db.find n' with
  | none, _ => .error (.noSuchTable n)
  | some _, some _ => .error (.tableExists n')
  | some _, none => .ok (db.map fun t =>
      { t with
        name := renamed n n' t.name
        schema := { t.schema with
          references := t.schema.references.map fun ref => (ref.1, renamed n n' ref.2) } })

/-- A table without rows takes any new column. -/
def addColumn (db : Database Name Idx Col) (n : Name) (c : Column Col) : Result Name Idx Col :=
  match db.find n with
  | none => .error (.noSuchTable n)
  | some t =>
    if c.name ∈ t.schema.names then .error (.columns n)
    else if c.notNull = true ∧ c.default = .null ∧ t.rows ≠ [] then .error (.constraint n)
    else .ok (db.modify n fun t =>
      { t with
        schema := { t.schema with columns := t.schema.columns ++ [c] }
        rows := t.rows.map fun r => Function.update r c.name c.default })

/-- `INSERT INTO n (into) SELECT cols FROM source`; foreign keys are looked at after the last row. -/
def insertSelect (db : Database Name Idx Col) (n : Name) (into cols : List Col) (source : Name) :
    Result Name Idx Col :=
  match db.find n, db.find source with
  | some t, some t₀ =>
    if (∀ c ∈ into, c ∈ t.schema.names) ∧ into.map t.schema.type? = cols.map t₀.schema.type? then
      let rows := t₀.rows.map fun r => t.schema.fill (into.zip (cols.map r))
      match rows.foldlM Table.insert t with
      | none => .error (.constraint n)
      | some t' =>
        if ∀ r ∈ rows, ∀ ref ∈ t.schema.references, (db.modify n fun _ => t').Refers r ref then
          .ok (db.modify n fun _ => t')
        else .error (.foreignKey n)
    else .error (.columns n)
  | none, _ => .error (.noSuchTable n)
  | some _, none => .error (.noSuchTable source)

/-- Delete the rows that refer to rows that are gone, then those that refer to these, and so on; there
    is a limit to the depth. -/
def cascade : ℕ → Database Name Idx Col → List (Name × Value) → Option (Database Name Idx Col)
  | _, db, [] => some db
  | 0, _, _ :: _ => none
  | depth + 1, db, g :: gone =>
    cascade depth (db.map (Table.kept (g :: gone))) (db.flatMap (Table.lost (g :: gone)))

/-- How deep a cascade may go. -/
def cascadeDepth : ℕ := 1000

/-- The tables that are referred to. -/
def referenced (db : Database Name Idx Col) : List Name :=
  db.flatMap fun t => t.schema.references.map Prod.snd

/-- Dropping a table deletes its rows first, and what refers to them. -/
def dropTable (db : Database Name Idx Col) (n : Name) : Result Name Idx Col :=
  match db.find n with
  | none => .error (.noSuchTable n)
  | some t =>
    match cascade cascadeDepth (db.modify n fun t => { t with rows := [] })
        (t.rows.map fun r => (n, r t.schema.key)) with
    | none => .error .recursionDepth
    | some db' => .ok (db'.filter fun t => decide (t.name ≠ n))

end Database

/-- Inside a transaction the pragma does nothing. -/
def Stmt.exec (db : Database Name Idx Col) : Stmt Name Idx Col → Result Name Idx Col
  | select | pragmaForeignKeys _ => .ok db
  | createTable n ifNotExists schema => db.createTable n ifNotExists schema
  | createIndex i ifNotExists unique n cols => db.createIndex i ifNotExists unique n cols
  | dropIndexIfExists i => .ok (db.dropIndexIfExists i)
  | renameTable n n' => db.renameTable n n'
  | addColumn n c => db.addColumn n c
  | insertSelect n into cols source => db.insertSelect n into cols source
  | dropTable n => db.dropTable n

/-- The statements in turn. -/
def runScript : List (Stmt Name Idx Col) → Database Name Idx Col → Result Name Idx Col
  | [], db => .ok db
  | stmt :: rest, db => (stmt.exec db).bind (runScript rest)

end statements

end Lib.Sql
