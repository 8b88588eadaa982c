import Mathlib.Tactic.SplitIfs
import ManagedCode.Proofs.Definitions

/-!
# Tokens keep their meaning

A token is a table and the number of a row. `named?` reads the five tables as one store of rows that is addressed by
tokens. A call that gives a token puts a row where there was none (`named?_append`), and no other call does anything to
that row but give it a body (`Call.named?_perform`). Rows are counted in 24 bits, so this is said of tables with fewer
than `2 ^ 24` rows.
-/

namespace ManagedCode

namespace Token

theorem eq_of_table_row {t t' : Token} (htable : t.table = t'.table) (hrow : t.row = t'.row) : t = t' := by
  have hraw : t.raw = t'.raw := by
    apply BitVec.eq_of_toNat_eq
    unfold table at htable
    unfold row at hrow
    omega
  cases t
  exact congrArg Token.mk hraw

theorem eq_make_iff {t : Token} {table row : Nat} (htable : table < 256) (hrow : row < 2 ^ 24) :
    t = make table row ↔ t.table = table ∧ t.row = row := by
  constructor
  · rintro rfl
    exact ⟨table_make table row htable, row_make table row hrow⟩
  · rintro ⟨ht, hr⟩
    refine eq_of_table_row ?_ ?_
    · rw [table_make table row htable, ht]
    · rw [row_make table row hrow, hr]

end Token

namespace Metadata

variable {md : Metadata} {t : Token}

/-! ## Tables as a store -/

/-- A row of one of the tables. -/
inductive Row where
  | type (row : TypeRow)
  | field (symbol : FieldSymbol)
  | method (symbol : MethodSymbol)
  | string (s : String)
  | signature (s : Signature)
  deriving DecidableEq

namespace Row

/-- The table that a row belongs to. -/
def table : Row → Nat
  | type _ => Token.typeDef
  | field _ => Token.field
  | method _ => Token.methodDef
  | string _ => Token.userString
  | signature _ => Token.standAloneSig

theorem table_lt (r : Row) : r.table < 256 := by
  cases r <;> simp [table, Token.typeDef, Token.field, Token.methodDef, Token.userString, Token.standAloneSig]

/-- A row after a body was given to it; only methods have bodies. -/
def updated : Row → Option Body → Row
  | method m, some b => method { m with body := some b }
  | r, _ => r

theorem updated_none (r : Row) : r.updated none = r := by
  cases r <;> rfl

theorem updated_updated (r : Row) (o : Option Body) (b : Body) :
    (r.updated o).updated (some b) = r.updated (some b) := by
  cases r <;> cases o <;> rfl

end Row

/-- The number of rows in the table of a row. -/
def count (md : Metadata) : Row → Nat
  | .type _ => md.types.size
  | .field _ => md.fields.size
  | .method _ => md.methods.size
  | .string _ => md.strings.size
  | .signature _ => md.signatures.size

def append (md : Metadata) : Row → Metadata
  | .type r => { md with types := md.types.push r }
  | .field f => { md with fields := md.fields.push f }
  | .method m => { md with methods := md.methods.push m }
  | .string s => { md with strings := md.strings.push s }
  | .signature s => { md with signatures := md.signatures.push s }

/-- The token that a row will have. -/
def nextToken (md : Metadata) (r : Row) : Token := .make r.table (md.count r + 1)

/-- **All tables have fewer rows than tokens can count.** -/
def Small (md : Metadata) : Prop :=
  md.types.size < 2 ^ 24 ∧ md.fields.size < 2 ^ 24 ∧ md.methods.size < 2 ^ 24 ∧ md.strings.size < 2 ^ 24 ∧
    md.signatures.size < 2 ^ 24

instance (md : Metadata) : Decidable md.Small := inferInstanceAs (Decidable (_ ∧ _))

/-- The row of a table that a token has the number of. -/
def row? {α : Type} (table : Array α) (t : Token) : Option α := if t.row = 0 then none else table[t.row - 1]?

/-- **The row that a token names.** -/
def named? (md : Metadata) (t : Token) : Option Row :=
  if t.table = Token.typeDef then (row? md.types t).map .type
  else if t.table = Token.field then (row? md.fields t).map .field
  else if t.table = Token.methodDef then (row? md.methods t).map .method
  else if t.table = Token.userString then (row? md.strings t).map .string
  else if t.table = Token.standAloneSig then (row? md.signatures t).map .signature
  else none

/-- **A token resolves to a row**: the function of its table gives what the row says, and the function of every other
table refuses the token. -/
structure Resolves (md : Metadata) (t : Token) (r : Row) : Prop where
  type : md.resolveType t = match r with
    | .type row => .ok row.symbol
    | _ => .error (.wrongTable t "type")
  method : md.resolveMethod t = match r with
    | .method symbol => .ok symbol
    | _ => .error (.wrongTable t "method")
  field : md.resolveField t = match r with
    | .field symbol => .ok symbol
    | _ => .error (.wrongTable t "field")
  signature : md.resolveSignature t = match r with
    | .signature s => .ok s
    | _ => .error (.wrongTable t "standalone signature")
  string : md.userString t = match r with
    | .string s => .ok s
    | _ => .error (.missingString t)
  symbol : md.resolveSymbol t = match r with
    | .type row => .ok (.type row.symbol)
    | .method symbol => .ok (.method symbol)
    | .field symbol => .ok (.field symbol)
    | _ => .error (.wrongTable t "type, method or field")

section

variable {α : Type} {table : Array α} {a b : α}

theorem rowOf_eq (table : Array α) (t : Token) (number : Nat) (name : String) : rowOf table t number name =
    if t.table = number then (row? table t).elim (.error (.notFound t)) .ok else .error (.wrongTable t name) := by
  unfold rowOf row?
  by_cases htable : t.table = number
  · by_cases hrow : t.row = 0
    · simp [htable, hrow]
    · simp only [htable, hrow, ne_eq, not_true_eq_false, if_true, if_false]
      cases table[t.row - 1]? <;> rfl
  · simp [htable]

theorem row?_push : row? (table.push a) t = if t.row = table.size + 1 then some a else row? table t := by
  unfold row?
  by_cases hrow : t.row = 0
  · simp [hrow]
  · have hiff : t.row - 1 = table.size ↔ t.row = table.size + 1 := by omega
    simp [hrow, Array.getElem?_push, hiff]

theorem row?_eq_none (hrow : t.row = table.size + 1) : row? table t = none := by
  simp [row?, hrow]

theorem push_setIfInBounds : (table.push a).setIfInBounds table.size b = table.push b := by
  apply Array.toList_inj.1
  simp [← Array.length_toList]

end

/-- **What a row says is what the functions give.** -/
theorem resolves_of_named? {r : Row} (h : md.named? t = some r) : md.Resolves t r := by
  unfold named? at h
  split_ifs at h
  all_goals
    obtain ⟨a, ha, rfl⟩ := Option.map_eq_some_iff.1 h
    constructor <;> simp [*, resolveType, resolveMethod, resolveField, resolveSignature, userString, resolveSymbol,
      rowOf_eq, Token.typeDef, Token.methodDef, Token.field, Token.standAloneSig, Token.userString, Except.map]

/-! ## A row that is added -/

variable {r : Row}

theorem Small.of_append (h : (md.append r).Small) : md.Small ∧ md.count r + 1 < 2 ^ 24 := by
  obtain ⟨htypes, hfields, hmethods, hstrings, hsignatures⟩ := h
  cases r <;>
    simp only [append, count, Array.size_push] at htypes hfields hmethods hstrings hsignatures ⊢ <;>
    exact ⟨⟨by omega, by omega, by omega, by omega, by omega⟩, by omega⟩

theorem eq_nextToken_iff (hcount : md.count r + 1 < 2 ^ 24) :
    t = md.nextToken r ↔ t.table = r.table ∧ t.row = md.count r + 1 :=
  Token.eq_make_iff r.table_lt hcount

/-- **A row that is added is found under its token**, and nothing else has changed. -/
theorem named?_append (hcount : md.count r + 1 < 2 ^ 24) :
    (md.append r).named? t = if t = md.nextToken r then some r else md.named? t := by
  simp only [eq_nextToken_iff hcount]
  cases r <;>
    simp only [append, count, named?, Row.table, Token.typeDef, Token.methodDef, Token.field, Token.standAloneSig,
      Token.userString, row?_push] <;>
    split_ifs <;> simp_all

theorem named?_nextToken (hcount : md.count r + 1 < 2 ^ 24) : md.named? (md.nextToken r) = none := by
  obtain ⟨htable, hrow⟩ := (eq_nextToken_iff hcount).1 rfl
  cases r <;>
    simp [named?, htable, Row.table, row?_eq_none hrow, Token.typeDef, Token.methodDef, Token.field,
      Token.standAloneSig, Token.userString]

/-! ## What one call does -/

theorem defineMethod_eq {name : String} {signature : Signature} {body : Body} (hsize : md.methods.size + 1 < 2 ^ 24) :
    md.defineMethod name signature body = (.ok (.make Token.methodDef (md.methods.size + 1)), { md with
      methods := md.methods.push ⟨⟨md.methods.size + 1⟩, name, Core.object, signature, false, some body⟩ }) := by
  have hrow : (Token.make Token.methodDef (md.methods.size + 1)).row = md.methods.size + 1 := Token.row_make _ _ hsize
  have htable : (Token.make Token.methodDef (md.methods.size + 1)).table = Token.methodDef :=
    Token.table_make _ _ (by decide)
  have hobject : (⟨Core.object.token.row⟩ : TypeHandle) = Core.object := by decide
  unfold defineMethod declareMethod
  dsimp only [MethodHandle.token]
  rw [defineBody_eq, resolveMethod, rowOf_eq, if_pos htable, row?_push, if_pos hrow, hrow, hobject]
  dsimp only [Option.elim, Except.map]
  rw [Nat.add_sub_cancel, push_setIfInBounds]

theorem size_defineMethod (md : Metadata) (name : String) (signature : Signature) (body : Body) :
    (md.defineMethod name signature body).2.methods.size = md.methods.size + 1 := by
  unfold defineMethod declareMethod
  dsimp only
  rw [defineBody_eq]
  cases resolveMethod _ _ with
  | error e => simp [Except.map]
  | ok m => simp [Except.map]

namespace Call

/-- **The row that a call adds**: what it defines. -/
def row? (md : Metadata) : Call → Option Row
  | defineType name kind base =>
    some (.type ⟨⟨⟨md.types.size + 1⟩, name, kind, kind != .object⟩, some (baseOf kind base)⟩)
  | defineField declaring name type isStatic =>
    match md.resolveType declaring, md.resolveType type with
    | .ok owner, .ok ty =>
      some (.field ⟨⟨md.fields.size + 1⟩, name, owner.handle, ty.handle, ty.kind, isStatic⟩)
    | _, _ => none
  | defineString s => some (.string s)
  | defineSignature s => some (.signature s)
  | declareMethod declaring name signature isVirtual =>
    some (.method ⟨⟨md.methods.size + 1⟩, name, ⟨declaring.row⟩, signature, isVirtual, none⟩)
  | defineMethod name signature body =>
    some (.method ⟨⟨md.methods.size + 1⟩, name, Core.object, signature, false, some body⟩)
  | defineBody .. | overrideMethod .. => none

/-- The body that a call gives to the method of a token. -/
def bodyFor? (t : Token) : Call → Option Body
  | defineBody method body => if method = t then some body else none
  | _ => none

variable {c : Call}

/-- **A call that adds a row gives its token.** -/
theorem perform_of_row? (hrow : c.row? md = some r)
    (hmethods : (∃ name signature body, c = defineMethod name signature body) → md.methods.size + 1 < 2 ^ 24) :
    c.perform md = (.ok (some (md.nextToken r)), md.append r) := by
  cases c with
  | defineType name kind base =>
    cases hrow
    cases base <;> rfl
  | defineField declaring name type isStatic =>
    unfold row? at hrow
    rw [perform, Metadata.defineField]
    cases ho : md.resolveType declaring with
    | error e => simp [ho] at hrow
    | ok owner =>
      cases ht : md.resolveType type with
      | error e => simp [ho, ht] at hrow
      | ok ty =>
        simp only [ho, ht, Option.some.injEq] at hrow
        subst hrow
        rfl
  | defineString s => cases hrow; rfl
  | defineSignature s => cases hrow; rfl
  | declareMethod declaring name signature isVirtual => cases hrow; rfl
  | defineMethod name signature body =>
    cases hrow
    rw [perform, defineMethod_eq (hmethods ⟨name, signature, body, rfl⟩)]
    rfl
  | defineBody method body => cases hrow
  | overrideMethod base type implementation => cases hrow

/-- **A call that adds no row** is refused and changes nothing, gives a method a body, or registers an override. -/
theorem perform_of_row?_eq_none (hrow : c.row? md = none) :
    (∃ e, c.perform md = (.error e, md)) ∨
    (∃ method body m, c = defineBody method body ∧ md.resolveMethod method = .ok m ∧
      c.perform md = (.ok none, { md with
        methods := md.methods.setIfInBounds (method.row - 1) { m with body := some body } })) ∨
    ∃ base type implementation overrides, c = overrideMethod base type implementation ∧
      c.perform md = (.ok none, { md with overrides }) := by
  cases c with
  | defineField declaring name type isStatic =>
    refine .inl ?_
    unfold row? at hrow
    rw [perform, Metadata.defineField]
    cases ho : md.resolveType declaring with
    | error e => exact ⟨e, rfl⟩
    | ok owner =>
      cases ht : md.resolveType type with
      | error e => exact ⟨e, rfl⟩
      | ok ty => simp [ho, ht] at hrow
  | defineBody method body =>
    rw [perform, defineBody_eq]
    cases hm : md.resolveMethod method with
    | error e => exact .inl ⟨e, rfl⟩
    | ok m => exact .inr (.inl ⟨method, body, m, rfl, hm, rfl⟩)
  | overrideMethod base type implementation =>
    rw [perform, Metadata.overrideMethod]
    cases md.resolveMethod base with
    | error e => exact .inl ⟨e, rfl⟩
    | ok m =>
      cases md.resolveMethod implementation with
      | error e => exact .inl ⟨e, rfl⟩
      | ok k =>
        cases md.resolveType type with
        | error e => exact .inl ⟨e, rfl⟩
        | ok ty => exact .inr (.inr ⟨base, type, implementation, _, rfl, rfl⟩)
  | _ => cases hrow

/-- A call that leaves the tables small began on small ones, and there was room for its row. -/
theorem small_of_perform (h : (c.perform md).2.Small) : md.Small ∧ ∀ r, c.row? md = some r →
    md.count r + 1 < 2 ^ 24 ∧ c.perform md = (.ok (some (md.nextToken r)), md.append r) := by
  cases hrow : c.row? md with
  | some r =>
    have hperform : c.perform md = (.ok (some (md.nextToken r)), md.append r) := by
      refine perform_of_row? hrow ?_
      rintro ⟨name, signature, body, rfl⟩
      have hsize : (md.defineMethod name signature body).2.methods.size < 2 ^ 24 := h.2.2.1
      rwa [size_defineMethod] at hsize
    rw [hperform] at h
    obtain ⟨hsmall, hcount⟩ := h.of_append
    refine ⟨hsmall, ?_⟩
    rintro _ ⟨⟩
    exact ⟨hcount, hperform⟩
  | none =>
    refine ⟨?_, fun r hr => by cases hr⟩
    obtain ⟨e, he⟩ | ⟨method, body, m, -, -, hb⟩ | ⟨base, type, implementation, overrides, -, ho⟩ :=
      perform_of_row?_eq_none hrow
    · rw [he] at h
      exact h
    · rw [hb] at h
      simpa [Small] using h
    · rw [ho] at h
      exact h

theorem bodyFor?_eq_none (hrow : c.row? md = some r) : c.bodyFor? t = none := by
  cases c with
  | defineBody method body => cases hrow
  | _ => rfl

/-- Giving a body to a method changes its row and no other. -/
theorem named?_setBody {method : Token} {m : MethodSymbol} {body : Body} (hm : md.resolveMethod method = .ok m)
    (he : md.named? t = some r) :
    ({ md with methods := md.methods.setIfInBounds (method.row - 1) { m with body := some body } } : Metadata).named? t =
      some (r.updated ((defineBody method body).bodyFor? t)) := by
  obtain ⟨htable, hrow, hget⟩ := rowOf_ok hm
  by_cases hmt : method = t
  · subst hmt
    have hlt := (Array.getElem?_eq_some_iff.1 hget).1
    simp [named?, htable, Metadata.row?, hrow, hget, Token.methodDef, Token.typeDef, Token.field] at he
    subst he
    simp [named?, htable, Metadata.row?, hrow, hlt, Token.methodDef, Token.typeDef, Token.field, bodyFor?, Row.updated]
  · have hnone : (defineBody method body).bodyFor? t = none := if_neg hmt
    rw [hnone, Row.updated_none, ← he]
    unfold named?
    by_cases ht : t.table = Token.methodDef
    · have hne : method.row ≠ t.row := fun hr => hmt (Token.eq_of_table_row (htable.trans ht.symm) hr)
      have hsame : Metadata.row? (md.methods.setIfInBounds (method.row - 1) { m with body := some body }) t =
          Metadata.row? md.methods t := by
        unfold Metadata.row?
        by_cases hz : t.row = 0
        · simp only [hz, if_true]
        · rw [if_neg hz, if_neg hz, Array.getElem?_setIfInBounds_ne (by omega)]
      rw [hsame]
    · simp only [ht, if_false]

/-- **No call does anything to a row but give it a body.** -/
theorem named?_perform (h : (c.perform md).2.Small) (he : md.named? t = some r) :
    (c.perform md).2.named? t = some (r.updated (c.bodyFor? t)) := by
  cases hrow : c.row? md with
  | some r' =>
    obtain ⟨hcount, hperform⟩ := (small_of_perform h).2 r' hrow
    have hne : t ≠ md.nextToken r' := by
      rintro rfl
      rw [named?_nextToken hcount] at he
      cases he
    rw [hperform, bodyFor?_eq_none hrow, Row.updated_none, named?_append hcount, if_neg hne]
    exact he
  | none =>
    obtain ⟨e, hfail⟩ | ⟨method, body, m, rfl, hm, hb⟩ | ⟨base, type, implementation, overrides, rfl, ho⟩ :=
      perform_of_row?_eq_none hrow
    · -- a refused body was meant for no method
      have hupdated : r.updated (c.bodyFor? t) = r := by
        cases r with
        | method m =>
          cases c with
          | defineBody method body =>
            have hmt : method ≠ t := by
              rintro rfl
              rw [perform, defineBody_eq, (resolves_of_named? he).method] at hfail
              cases hfail
            rw [bodyFor?, if_neg hmt, Row.updated_none]
          | _ => rfl
        | _ => cases c.bodyFor? t <;> rfl
      rw [hfail, hupdated]
      exact he
    · rw [hb]
      exact named?_setBody hm he
    · have hnone : (overrideMethod base type implementation).bodyFor? t = none := rfl
      rw [ho, hnone, Row.updated_none]
      exact he

end Call

/-! ## Whole programs -/

/-- The body that was last given to the method of a token. -/
def lastBody? (t : Token) (calls : List Call) : Option Body := calls.findSome? (·.bodyFor? t)

theorem small_of_suffix : ∀ {later calls : List Call}, (built (later ++ calls)).Small → (built calls).Small
  | [], _, h => h
  | _ :: _, _, h => small_of_suffix (Call.small_of_perform h).1

/-- **What was defined stays**, with the body that was given last. -/
theorem named?_built {c : Call} {earlier : List Call} (hrow : c.row? (built earlier) = some r) :
    ∀ {later : List Call}, (built (later ++ c :: earlier)).Small →
      (built (later ++ c :: earlier)).named? ((built earlier).nextToken r) =
        some (r.updated (lastBody? ((built earlier).nextToken r) later))
  | [], h => by
    obtain ⟨hcount, hperform⟩ := (Call.small_of_perform h).2 r hrow
    show (c.perform (built earlier)).2.named? _ = _
    rw [hperform, named?_append hcount, if_pos rfl, lastBody?, List.findSome?_nil, Row.updated_none]
  | c' :: later, h => by
    have ih := named?_built hrow (Call.small_of_perform h).1
    refine (Call.named?_perform h ih).trans ?_
    rw [lastBody?, lastBody?, List.findSome?_cons]
    cases hb : c'.bodyFor? ((built earlier).nextToken r) with
    | none => rw [Row.updated_none]
    | some b => rw [Row.updated_updated]

/-- A token names nothing before it is given. -/
theorem row?_of_token {c : Call} {calls : List Call} (h : (built (c :: calls)).Small)
    (htoken : (c.perform (built calls)).1 = .ok (some t)) :
    ∃ r, c.row? (built calls) = some r ∧ t = (built calls).nextToken r ∧ (built calls).named? t = none := by
  cases hrow : c.row? (built calls) with
  | some r =>
    obtain ⟨hcount, hperform⟩ := (Call.small_of_perform h).2 r hrow
    rw [hperform] at htoken
    cases htoken
    exact ⟨r, rfl, rfl, named?_nextToken hcount⟩
  | none =>
    obtain ⟨e, he⟩ | ⟨method, body, m, -, -, hb⟩ | ⟨base, type, implementation, overrides, -, ho⟩ :=
      Call.perform_of_row?_eq_none hrow
    · rw [he] at htoken
      cases htoken
    · rw [hb] at htoken
      cases htoken
    · rw [ho] at htoken
      cases htoken

/-- **Tokens are stable.** In a program whose tables stay small, a token that a call gave resolves to what the call
defined, a method with the body that it was given last, and every other table refuses it. Calls at different places give
different tokens. A call that fails changes nothing. -/
theorem tokens_are_stable {calls : List Call} (hsmall : (built calls).Small) :
    (∀ later c earlier t, calls = later ++ c :: earlier → (c.perform (built earlier)).1 = .ok (some t) →
      ∃ r, c.row? (built earlier) = some r ∧ (built calls).Resolves t (r.updated (lastBody? t later))) ∧
    (∀ c earlier t c' earlier' t', c :: earlier <:+ calls → c' :: earlier' <:+ calls →
      (c.perform (built earlier)).1 = .ok (some t) → (c'.perform (built earlier')).1 = .ok (some t') →
      earlier.length ≠ earlier'.length → t ≠ t') ∧
    ∀ c earlier e, c :: earlier <:+ calls → (c.perform (built earlier)).1 = .error e →
      (c.perform (built earlier)).2 = built earlier := by
  -- of two calls the later one gives a token that names nothing yet, while that of the earlier one does
  have hfresh : ∀ c earlier t c' earlier' t', c :: earlier <:+ calls → c' :: earlier' <:+ calls →
      (c.perform (built earlier)).1 = .ok (some t) → (c'.perform (built earlier')).1 = .ok (some t') →
      earlier.length < earlier'.length → t ≠ t' := by
    rintro c earlier t c' earlier' t' hs hs' ht ht' hlt rfl
    obtain ⟨later', rfl⟩ := hs'
    obtain ⟨r', -, -, hnone⟩ := row?_of_token (small_of_suffix hsmall) ht'
    have hbetween : c :: earlier <:+ earlier' := by
      refine List.suffix_of_suffix_length_le hs ?_ hlt
      exact ((List.suffix_cons c' earlier').trans (List.suffix_append later' _))
    obtain ⟨between, rfl⟩ := hbetween
    have hsmall' : (built (between ++ c :: earlier)).Small := by
      have h := small_of_suffix hsmall
      exact (Call.small_of_perform h).1
    obtain ⟨r, hrow, rfl, -⟩ := row?_of_token (small_of_suffix hsmall') ht
    rw [named?_built hrow hsmall'] at hnone
    cases hnone
  refine ⟨?_, ?_, ?_⟩
  · rintro later c earlier t rfl ht
    obtain ⟨r, hrow, rfl, -⟩ := row?_of_token (small_of_suffix hsmall) ht
    exact ⟨r, hrow, resolves_of_named? (named?_built hrow hsmall)⟩
  · intro c earlier t c' earlier' t' hs hs' ht ht' hne
    rcases Nat.lt_or_gt_of_ne hne with hlt | hgt
    · exact hfresh c earlier t c' earlier' t' hs hs' ht ht' hlt
    · exact (hfresh c' earlier' t' c earlier t hs' hs ht' ht hgt).symm
  · rintro c earlier e ⟨later, rfl⟩ he
    have hsmall' : (built (c :: earlier)).Small := small_of_suffix hsmall
    cases hrow : c.row? (built earlier) with
    | some r =>
      rw [((Call.small_of_perform hsmall').2 r hrow).2] at he
      cases he
    | none =>
      obtain ⟨e', hfail⟩ | ⟨method, body, m, -, -, hb⟩ | ⟨base, type, implementation, overrides, -, ho⟩ :=
        Call.perform_of_row?_eq_none hrow
      · rw [hfail]
      · rw [hb] at he
        cases he
      · rw [ho] at he
        cases he

/-! ## A method that is given two bodies -/

/-- The method behind the two constructors of the core. -/
def speak : Token := .make Token.methodDef 3

/-- A method, its body, a string and another body for the method; in between, a field of a type that there is not. -/
def speakCalls : List Call :=
  [.defineBody speak ⟨#[0x17, 0x2A], 1, [], []⟩, .defineString "hi",
   .defineField (.make Token.typeDef 31) "X" Core.object.token false,
   .defineBody speak ⟨#[0x16, 0x2A], 1, [], []⟩,
   .declareMethod Core.object.token "Speak" { result := some .i4 } true]

/-- The method has the second body, no string has its token, that of the string is another one, and the refused field
left nothing behind. -/
theorem speak_is_stable :
    (built speakCalls).Small ∧
    (built speakCalls).resolveMethod speak =
      .ok ⟨⟨3⟩, "Speak", Core.object, { result := some .i4 }, true, some ⟨#[0x17, 0x2A], 1, [], []⟩⟩ ∧
    (built speakCalls).userString speak = .error (.missingString speak) ∧
    (built speakCalls).userString (.make Token.userString 1) = .ok "hi" ∧
    speak ≠ .make Token.userString 1 ∧
    built (speakCalls.drop 2) = built (speakCalls.drop 3) := by
  have hsmall : (built speakCalls).Small := by decide +kernel
  obtain ⟨hresolves, hdistinct, hfails⟩ := tokens_are_stable hsmall
  have hspeak : ((speakCalls.get ⟨4, by decide⟩).perform (built [])).1 = .ok (some speak) := rfl
  have hstring : ((speakCalls.get ⟨1, by decide⟩).perform (built (speakCalls.drop 2))).1 =
      .ok (some (.make Token.userString 1)) := rfl
  obtain ⟨r, hr, hmethod⟩ := hresolves (speakCalls.take 4) _ [] speak rfl hspeak
  obtain ⟨r', hr', hhi⟩ := hresolves (speakCalls.take 1) _ (speakCalls.drop 2) _ rfl hstring
  cases hr
  cases hr'
  refine ⟨hsmall, hmethod.method, hmethod.string, hhi.string, ?_, ?_⟩
  · exact hdistinct _ _ speak _ _ _ (List.drop_suffix 4 speakCalls) (List.drop_suffix 1 speakCalls) hspeak hstring
      (by decide)
  · exact hfails _ _ (.notFound (.make Token.typeDef 31)) (List.drop_suffix 2 speakCalls) rfl

end Metadata

end ManagedCode
