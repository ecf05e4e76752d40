import QueryEngine.Plan.Logical
import QueryEngine.Proofs.Bytes
import QueryEngine.Proofs.SamePlans

/-!
# What digests tell apart

A digest holds names in place of columns, texts in place of functions and, where rows are deleted,
the name of a table in place of the table; the groups of nodes are left out. Among plans in which
every such text stands for one thing it tells apart all that execution sees but the groups of
sub-queries.
-/

set_option autoImplicit false

namespace QueryEngine

/-- What the texts and numbers in a digest stand for. -/
structure Vocabulary where
  column : String → Column
  function : String → Bool → Function
  table : Nat → TableHandle
  deleted : String → TableHandle

namespace Vocabulary

structure HasColumn (V : Vocabulary) (c : Column) : Prop where
  plain : Plain c.name
  known : V.column c.name = c

structure HasColumns (V : Vocabulary) (cs : List Column) : Prop where
  short : cs.length < UInt64.size
  known : ∀ c ∈ cs, V.HasColumn c

structure HasFunction (V : Vocabulary) (f : Function) (arguments : Nat) : Prop where
  plain : Plain f.signature.display
  known : V.function f.signature.display f.isVectorised = f
  arity : f.signature.arguments.length = arguments

structure HasTable (V : Vocabulary) (t : TableHandle) : Prop where
  named : t.name.utf8ByteSize < UInt64.size
  numbered : t.number < UInt64.size
  known : V.table t.number = t

structure HasDeleted (V : Vocabulary) (t : TableHandle) : Prop where
  named : t.name.utf8ByteSize < UInt64.size
  known : V.deleted t.name = t

variable {V : Vocabulary}

theorem HasColumn.eq_of_name {c d : Column} (hc : V.HasColumn c) (hd : V.HasColumn d)
    (h : c.name = d.name) : c = d := by
  rw [← hc.known, h, hd.known]

theorem HasFunction.eq_of_display {f g : Function} {n m : Nat} (hf : V.HasFunction f n)
    (hg : V.HasFunction g m) (h : f.signature.display = g.signature.display)
    (hv : f.isVectorised = g.isVectorised) : f = g := by
  rw [← hf.known, h, hv, hg.known]

end Vocabulary

variable {V : Vocabulary}

/-! ## Bindings -/

namespace Binding

mutual

/-- Whether a binding has only columns and functions of a vocabulary. -/
def Spoken (V : Vocabulary) : Binding → Prop
  | literal slot _ => slot < UInt64.size
  | column c => V.HasColumn c
  | call f arguments => V.HasFunction f arguments.length ∧ AllSpoken V arguments
  | subquery _ c => V.HasColumn c

def AllSpoken (V : Vocabulary) : List Binding → Prop
  | [] => True
  | b :: rest => b.Spoken V ∧ AllSpoken V rest

end

theorem allSpoken_iff {bs : List Binding} : AllSpoken V bs ↔ ∀ b ∈ bs, b.Spoken V := by
  induction bs with
  | nil => simp [AllSpoken]
  | cons b rest ih => rw [AllSpoken, ih, List.forall_mem_cons]

theorem digestBytesOfAll_eq_flatMap (bs : List Binding) :
    digestBytesOfAll bs = bs.flatMap digestBytes := by
  induction bs with
  | nil => rfl
  | cons b rest ih => rw [digestBytesOfAll, ih, List.flatMap_cons]

/-- A binding begins with a tag. -/
theorem exists_digestBytes_eq (b : Binding) : ∃ tag rest, b.digestBytes = tag :: rest ∧ tag < 4 := by
  cases b with
  | literal slot type => exact ⟨0, _, rfl, by decide⟩
  | column c => exact ⟨1, _, rfl, by decide⟩
  | call f arguments => exact ⟨2, _, rfl, by decide⟩
  | subquery group c => exact ⟨3, _, rfl, by decide⟩

theorem follows_digestBytes (b : Binding) (r : List UInt8) : Follows false (b.digestBytes ++ r) := by
  obtain ⟨tag, rest, hb, htag⟩ := b.exists_digestBytes_eq
  rw [hb, List.cons_append]
  exact .tag _ (UInt8.lt_trans htag (by decide))

theorem follows_digestBytesOfAll {sized : Bool} {bs bs' : List Binding} {r r' : List UInt8}
    (hlength : bs.length = bs'.length) (hr : Follows sized r) (hr' : Follows sized r') :
    ∃ behind, Follows behind (digestBytesOfAll bs ++ r) ∧
      Follows behind (digestBytesOfAll bs' ++ r') := by
  cases bs with
  | nil =>
    cases bs' with
    | nil => exact ⟨sized, hr, hr'⟩
    | cons b' rest' => cases hlength
  | cons b rest =>
    cases bs' with
    | nil => cases hlength
    | cons b' rest' =>
      rw [digestBytesOfAll, digestBytesOfAll, List.append_assoc, List.append_assoc]
      exact ⟨false, b.follows_digestBytes _, b'.follows_digestBytes _⟩

theorem toUInt8_inj {a b : Bool} (h : a.toUInt8 = b.toUInt8) : a = b := by
  cases a <;> cases b <;> first | rfl | exact absurd h (by decide)

theorem toUInt8_lt (b : Bool) : b.toUInt8 < 32 := by
  cases b <;> decide

mutual

/-- A binding can be read back up to the declared types of slots. -/
theorem digestBytes_append_inj {sized : Bool} : ∀ {a b : Binding} {r r' : List UInt8},
    a.Spoken V → b.Spoken V → Follows sized r → Follows sized r' →
    a.digestBytes ++ r = b.digestBytes ++ r' → a.untyped = b.untyped ∧ r = r'
  | .literal slot type, b, r, r', ha, hb, hr, hr', h => by
    cases b with
    | literal slot' type' =>
      obtain ⟨-, h⟩ := List.cons.inj h
      obtain ⟨rfl, hrest⟩ := littleEndian_append_inj ha hb h
      exact ⟨rfl, hrest⟩
    | _ => exact absurd (List.cons.inj h).1 (by decide)
  | .column c, b, r, r', ha, hb, hr, hr', h => by
    cases b with
    | column d =>
      obtain ⟨-, h⟩ := List.cons.inj h
      have hc : V.HasColumn c := ha
      have hd : V.HasColumn d := hb
      obtain ⟨hname, hrest⟩ := utf8Bytes_append_inj hc.plain hd.plain hr hr' h
      exact ⟨congrArg Binding.column (hc.eq_of_name hd hname), hrest⟩
    | _ => exact absurd (List.cons.inj h).1 (by decide)
  | .call f arguments, b, r, r', ha, hb, hr, hr', h => by
    cases b with
    | call g others =>
      obtain ⟨hf, harguments⟩ := ha
      obtain ⟨hg, hothers⟩ := hb
      simp only [digestBytes, List.append_assoc, List.cons_append] at h
      obtain ⟨-, h⟩ := List.cons.inj h
      obtain ⟨hdisplay, h⟩ := utf8Bytes_append_inj hf.plain hg.plain
        (.tag _ (toUInt8_lt _)) (.tag _ (toUInt8_lt _)) h
      obtain ⟨hvectorised, hbehind⟩ := List.cons.inj h
      have hfg : f = g := hf.eq_of_display hg hdisplay (toUInt8_inj hvectorised)
      subst hfg
      have hlength : arguments.length = others.length := hf.arity.symm.trans hg.arity
      obtain ⟨hall, hrest⟩ :=
        digestBytesOfAll_append_inj harguments hothers hlength hr hr' hbehind
      rw [untyped, untyped, hall]
      exact ⟨rfl, hrest⟩
    | _ => exact absurd (List.cons.inj h).1 (by decide)
  | .subquery group c, b, r, r', ha, hb, hr, hr', h => by
    cases b with
    | subquery group' d =>
      have hc : V.HasColumn c := ha
      have hd : V.HasColumn d := hb
      simp only [digestBytes, List.append_assoc, List.cons_append] at h
      obtain ⟨-, h⟩ := List.cons.inj h
      obtain ⟨rfl, hbehind⟩ := bytes32_append_inj h
      obtain ⟨hname, hrest⟩ := utf8Bytes_append_inj hc.plain hd.plain hr hr' hbehind
      exact ⟨congrArg (Binding.subquery group) (hc.eq_of_name hd hname), hrest⟩
    | _ => exact absurd (List.cons.inj h).1 (by decide)

theorem digestBytesOfAll_append_inj {sized : Bool} : ∀ {as bs : List Binding} {r r' : List UInt8},
    AllSpoken V as → AllSpoken V bs → as.length = bs.length → Follows sized r → Follows sized r' →
    digestBytesOfAll as ++ r = digestBytesOfAll bs ++ r' → untypedAll as = untypedAll bs ∧ r = r'
  | [], bs, r, r', _, _, hlength, _, _, h => by
    cases bs with
    | nil => exact ⟨rfl, h⟩
    | cons b others => cases hlength
  | a :: rest, bs, r, r', ha, hb, hlength, hr, hr', h => by
    cases bs with
    | nil => cases hlength
    | cons b others =>
      have hlength : rest.length = others.length := Nat.succ.inj hlength
      obtain ⟨behind, hrest, hothers⟩ := follows_digestBytesOfAll hlength hr hr'
      rw [digestBytesOfAll, digestBytesOfAll, List.append_assoc, List.append_assoc] at h
      obtain ⟨hfirst, h⟩ := digestBytes_append_inj ha.1 hb.1 hrest hothers h
      obtain ⟨hall, h⟩ := digestBytesOfAll_append_inj ha.2 hb.2 hlength hr hr' h
      rw [untypedAll, untypedAll, hfirst, hall]
      exact ⟨rfl, h⟩

end

end Binding

/-! ## Predicates -/

namespace Comparison

structure Spoken (V : Vocabulary) (c : Comparison) : Prop where
  short : c.bindings.length < UInt64.size
  spoken : ∀ b ∈ c.bindings, b.Spoken V

/-- The name that is told by the first two bytes of a digest. -/
def nameOf (first second : UInt8) : String :=
  match first.toNat, second.toNat with
  | 61, _ => "="
  | 33, _ => "!="
  | 62, 2 => ">"
  | 62, _ => ">="
  | 60, 2 => "<"
  | 60, _ => "<="
  | 66, _ => "BETWEEN"
  | 73, 78 => "IN"
  | 73, _ => "IS NULL"
  | _, _ => "LIKE"

theorem exists_digestBytes_eq (c : Comparison) (r : List UInt8) :
    ∃ first second rest, c.digestBytes ++ r = first :: second :: rest ∧
      nameOf first second = c.name := by
  cases c with
  | relation relation left right => cases relation <;> exact ⟨_, _, _, rfl, rfl⟩
  | between value lower upper => exact ⟨_, _, _, rfl, rfl⟩
  | oneOf value list => exact ⟨_, _, _, rfl, rfl⟩
  | isNull value => exact ⟨_, _, _, rfl, rfl⟩
  | like value pattern => exact ⟨_, _, _, rfl, rfl⟩

theorem name_untyped (c : Comparison) : c.untyped.name = c.name := by
  cases c <;> rfl

theorem digestBytes_append_inj {sized : Bool} {c d : Comparison} {r r' : List UInt8}
    (hc : c.Spoken V) (hd : d.Spoken V) (hr : Follows sized r) (hr' : Follows sized r')
    (h : c.digestBytes ++ r = d.digestBytes ++ r') : c.untyped = d.untyped ∧ r = r' := by
  have hname : c.name = d.name := by
    obtain ⟨first, second, rest, hbytes, hc⟩ := c.exists_digestBytes_eq r
    obtain ⟨first', second', rest', hbytes', hd⟩ := d.exists_digestBytes_eq r'
    rw [hbytes, hbytes'] at h
    obtain ⟨hfirst, hbehind⟩ := List.cons.inj h
    rw [← hc, ← hd, hfirst, (List.cons.inj hbehind).1]
  simp only [digestBytes, hname, List.append_assoc, ← Binding.digestBytesOfAll_eq_flatMap] at h
  obtain ⟨hlength, h⟩ := littleEndian_append_inj hc.short hd.short (List.append_cancel_left h)
  obtain ⟨hall, hrest⟩ := Binding.digestBytesOfAll_append_inj (Binding.allSpoken_iff.2 hc.spoken)
    (Binding.allSpoken_iff.2 hd.spoken) hlength hr hr' h
  rw [Binding.untypedAll_eq_map, Binding.untypedAll_eq_map, ← bindings_untyped,
    ← bindings_untyped] at hall
  have hsome : some c.untyped = some d.untyped := by
    rw [← ofBindings?_bindings, ← ofBindings?_bindings, hall, name_untyped, name_untyped, hname]
  exact ⟨Option.some.inj hsome, hrest⟩

end Comparison

namespace Predicate

def Spoken (V : Vocabulary) : Predicate → Prop
  | literal _ => True
  | atom c _ => c.Spoken V
  | both left right => left.Spoken V ∧ right.Spoken V
  | either left right => left.Spoken V ∧ right.Spoken V

theorem follows_digestBytes (p : Predicate) (r : List UInt8) :
    Follows false (p.digestBytes ++ r) := by
  cases p with
  | literal value => exact .tag _ (by decide)
  | atom c negated => exact .tag _ (by decide)
  | both left right => exact .tag _ (by decide)
  | either left right => exact .tag _ (by decide)

theorem digestBytes_append_inj {sized : Bool} {p q : Predicate} {r r' : List UInt8}
    (hp : p.Spoken V) (hq : q.Spoken V) (hr : Follows sized r) (hr' : Follows sized r')
    (h : p.digestBytes ++ r = q.digestBytes ++ r') : p.untyped = q.untyped ∧ r = r' := by
  induction p generalizing sized q r r' with
  | literal value =>
    cases q with
    | literal value' =>
      obtain ⟨-, h⟩ := List.cons.inj h
      obtain ⟨hvalue, hrest⟩ := List.cons.inj h
      exact ⟨congrArg literal (Binding.toUInt8_inj hvalue), hrest⟩
    | _ => exact absurd (List.cons.inj h).1 (by decide)
  | atom c negated =>
    cases q with
    | atom d negated' =>
      obtain ⟨-, h⟩ := List.cons.inj h
      obtain ⟨hnegated, h⟩ := List.cons.inj h
      obtain ⟨hcomparison, hrest⟩ := Comparison.digestBytes_append_inj hp hq hr hr' h
      rw [untyped, untyped, hcomparison, Binding.toUInt8_inj hnegated]
      exact ⟨rfl, hrest⟩
    | _ => exact absurd (List.cons.inj h).1 (by decide)
  | both left right ihl ihr =>
    cases q with
    | both left' right' =>
      simp only [digestBytes, List.cons_append, List.append_assoc] at h
      obtain ⟨-, h⟩ := List.cons.inj h
      obtain ⟨hleft, h⟩ := ihl hp.1 hq.1 (right.follows_digestBytes r)
        (right'.follows_digestBytes r') h
      obtain ⟨hright, hrest⟩ := ihr hp.2 hq.2 hr hr' h
      rw [untyped, untyped, hleft, hright]
      exact ⟨rfl, hrest⟩
    | _ => exact absurd (List.cons.inj h).1 (by decide)
  | either left right ihl ihr =>
    cases q with
    | either left' right' =>
      simp only [digestBytes, List.cons_append, List.append_assoc] at h
      obtain ⟨-, h⟩ := List.cons.inj h
      obtain ⟨hleft, h⟩ := ihl hp.1 hq.1 (right.follows_digestBytes r)
        (right'.follows_digestBytes r') h
      obtain ⟨hright, hrest⟩ := ihr hp.2 hq.2 hr hr' h
      rw [untyped, untyped, hleft, hright]
      exact ⟨rfl, hrest⟩
    | _ => exact absurd (List.cons.inj h).1 (by decide)

end Predicate

/-! ## Lists of names -/

/-- What is behind the number of inputs of a plan: its inputs and what is behind the plan. Every
plan begins with the size of the word that tells its kind. -/
inductive Behind : Nat → List UInt8 → Prop
  | nothing : Behind 0 []
  | plan (n : Nat) (r : List UInt8) : Behind n (7 :: r)

theorem Behind.follows {n : Nat} {r : List UInt8} (hn : n < UInt32.size) (hr : Behind n r) :
    Follows true (littleEndian 8 n ++ r) := by
  apply Follows.word hn
  intro hpos
  cases hr with
  | nothing => exact absurd rfl hpos
  | plan _ r => exact ⟨7, r, rfl, by decide⟩

theorem follows_sizedBytes {s : String} (hs : Plain s) (r : List UInt8) :
    Follows true (sizedBytes s ++ r) := by
  rw [sizedBytes, List.append_assoc]
  apply Follows.word hs.short
  intro hpos
  cases hbytes : utf8Bytes s with
  | nil =>
    rw [← utf8Bytes_length, hbytes] at hpos
    exact absurd rfl hpos
  | cons b rest =>
    refine ⟨b, rest ++ r, rfl, ?_⟩
    rintro rfl
    exact absurd (hs.printable 0 (hbytes ▸ List.mem_cons_self)) (by decide)

/-- The number of inputs, if there is at most one, is no size of a further name. -/
theorem Behind.ne_sizedBytes {n : Nat} {s : String} {r x : List UInt8} (hr : Behind n r)
    (hn : n ≤ 1) (hs : Plain s) (hx : n = 0 → ∃ tag rest, x = tag :: rest ∧ tag < 4) :
    littleEndian 8 n ++ r ≠ sizedBytes s ++ x := by
  intro h
  rw [sizedBytes, List.append_assoc] at h
  obtain ⟨hsize, hrest⟩ := littleEndian_append_inj (Nat.lt_of_le_of_lt hn (by decide)) hs.size_lt h
  rw [← utf8Bytes_length] at hsize
  cases hbytes : utf8Bytes s with
  | nil =>
    rw [hbytes] at hsize hrest
    subst hsize
    obtain ⟨tag, rest, rfl, htag⟩ := hx rfl
    cases hr with
    | nothing => cases hrest
    | plan _ r =>
      rw [← (List.cons.inj hrest).1] at htag
      exact absurd htag (by decide)
  | cons b rest =>
    have hb : 32 ≤ b := hs.printable b (hbytes ▸ List.mem_cons_self)
    rw [hbytes] at hsize hrest
    cases hr with
    | nothing => cases hsize
    | plan _ r =>
      rw [← (List.cons.inj hrest).1] at hb
      exact absurd hb (by decide)

theorem sizedName_append_inj {c d : Column} {r r' : List UInt8} (hc : V.HasColumn c)
    (hd : V.HasColumn d) (h : sizedBytes c.name ++ r = sizedBytes d.name ++ r') :
    c = d ∧ r = r' := by
  obtain ⟨hname, hrest⟩ := sizedBytes_append_inj hc.plain.size_lt hd.plain.size_lt h
  exact ⟨hc.eq_of_name hd hname, hrest⟩

theorem sizedNames_append_inj {cs ds : List Column} {r r' : List UInt8}
    (hcs : ∀ c ∈ cs, V.HasColumn c) (hds : ∀ d ∈ ds, V.HasColumn d) (hr : Behind 1 r)
    (hr' : Behind 1 r')
    (h : (cs.flatMap fun c => sizedBytes c.name) ++ (littleEndian 8 1 ++ r) =
      (ds.flatMap fun c => sizedBytes c.name) ++ (littleEndian 8 1 ++ r')) : cs = ds ∧ r = r' := by
  induction cs generalizing ds with
  | nil =>
    cases ds with
    | nil => exact ⟨rfl, List.append_cancel_left h⟩
    | cons d ds =>
      rw [List.flatMap_cons, List.append_assoc] at h
      exact absurd h (hr.ne_sizedBytes (Nat.le_refl 1) (hds d List.mem_cons_self).plain
        fun hzero => nomatch hzero)
  | cons c cs ih =>
    have hc := hcs c List.mem_cons_self
    cases ds with
    | nil =>
      rw [List.flatMap_cons, List.append_assoc] at h
      exact absurd h.symm (hr'.ne_sizedBytes (Nat.le_refl 1) hc.plain fun hzero => nomatch hzero)
    | cons d ds =>
      rw [List.flatMap_cons, List.flatMap_cons, List.append_assoc, List.append_assoc] at h
      obtain ⟨rfl, hrest⟩ := sizedName_append_inj hc (hds d List.mem_cons_self) h
      obtain ⟨rfl, hbehind⟩ := ih (fun c hc => hcs c (List.mem_cons_of_mem _ hc))
        (fun d hd => hds d (List.mem_cons_of_mem _ hd)) hrest
      exact ⟨rfl, hbehind⟩

/-! ## What operators are given -/

namespace Operator

theorem tableBytes_append_inj {t u : TableHandle} {r r' : List UInt8} (ht : V.HasTable t)
    (hu : V.HasTable u) (h : tableBytes t ++ r = tableBytes u ++ r') : t = u ∧ r = r' := by
  simp only [tableBytes, List.append_assoc] at h
  obtain ⟨-, hbehind⟩ := sizedBytes_append_inj ht.named hu.named h
  obtain ⟨hnumber, hrest⟩ := littleEndian_append_inj ht.numbered hu.numbered hbehind
  refine ⟨?_, hrest⟩
  rw [← ht.known, hnumber, hu.known]

theorem columnsBytes_append_inj {cs ds : List Column} {r r' : List UInt8} (hcs : V.HasColumns cs)
    (hds : V.HasColumns ds) (h : columnsBytes cs ++ r = columnsBytes ds ++ r') :
    cs = ds ∧ r = r' := by
  obtain ⟨hshort, hcs⟩ := hcs
  obtain ⟨hshort', hds⟩ := hds
  simp only [columnsBytes, List.append_assoc] at h
  obtain ⟨hlength, hnames⟩ := littleEndian_append_inj hshort hshort' h
  exact flatMap_append_inj (fun hc hd h => sizedName_append_inj hc hd h) hcs hds hlength hnames

theorem direction_eq {d d' : Direction}
    (h : (d = .descending : Bool).toUInt8 = (d' = .descending : Bool).toUInt8) : d = d' := by
  cases d <;> cases d' <;> first | rfl | exact absurd h (by decide)

theorem orderBytes_append_inj {order order' : SortOrder} {r r' : List UInt8}
    (ho : order.length < UInt64.size) (ho' : order'.length < UInt64.size)
    (hkeys : ∀ key ∈ order, V.HasColumn key.1) (hkeys' : ∀ key ∈ order', V.HasColumn key.1)
    (h : orderBytes order ++ r = orderBytes order' ++ r') : order = order' ∧ r = r' := by
  simp only [orderBytes, List.append_assoc] at h
  obtain ⟨hlength, hnames⟩ := littleEndian_append_inj ho ho' h
  refine flatMap_append_inj (fun {key key' r r'} hkey hkey' h => ?_) hkeys hkeys' hlength hnames
  rw [List.append_assoc, List.append_assoc] at h
  obtain ⟨hcolumn, hbehind⟩ := sizedName_append_inj hkey hkey' h
  obtain ⟨hdirection, hrest⟩ := List.cons.inj hbehind
  exact ⟨Prod.ext hcolumn (direction_eq hdirection), hrest⟩

theorem boundsBytes_append_inj {b b' : RowLimit} {r r' : List UInt8}
    (h : boundsBytes b ++ r = boundsBytes b' ++ r') : b = b' ∧ r = r' := by
  simp only [boundsBytes, List.append_assoc] at h
  obtain ⟨hskip, hbehind⟩ := bytes64_append_inj h
  obtain ⟨hlimit, hrest⟩ := bytes64_append_inj hbehind
  cases b
  cases b'
  exact ⟨congr (congrArg RowLimit.mk hskip) hlimit, hrest⟩

/-- A projection is read back before the number of its inputs, which is one. -/
theorem projectionBytes_append_inj {p p' : Projection} {r r' : List UInt8}
    (hp : ∀ c ∈ p.requires, V.HasColumn c) (hp' : ∀ c ∈ p'.requires, V.HasColumn c)
    (hr : Behind 1 r) (hr' : Behind 1 r')
    (h : p.digestBytes ++ (littleEndian 8 1 ++ r) = p'.digestBytes ++ (littleEndian 8 1 ++ r')) :
    p = p' ∧ r = r' := by
  have hsize (p : Projection) : p.name.utf8ByteSize < UInt64.size := by
    cases p <;> simp only [Projection.name] <;> decide
  simp only [Projection.digestBytes, List.append_assoc] at h
  obtain ⟨hkind, hnames⟩ := sizedBytes_append_inj (hsize p) (hsize p') h
  obtain ⟨hcolumns, hrest⟩ := sizedNames_append_inj hp hp' hr hr' hnames
  have hsome : some p = some p' := by
    rw [← Projection.ofColumns?_requires, ← Projection.ofColumns?_requires p', hkind, hcolumns]
  exact ⟨Option.some.inj hsome, hrest⟩

/-- A call is read back up to the declared types of slots. -/
theorem callBytes_append_inj {f f' : Function} {arguments arguments' : List Binding}
    {out out' : Column} {r r' : List UInt8} (hf : V.HasFunction f arguments.length)
    (hf' : V.HasFunction f' arguments'.length) (harguments : ∀ a ∈ arguments, a.Spoken V)
    (harguments' : ∀ a ∈ arguments', a.Spoken V) (hout : V.HasColumn out) (hout' : V.HasColumn out')
    (h : (Operator.function f arguments out).detailBytes ++ r =
      (Operator.function f' arguments' out').detailBytes ++ r') :
    Operator.function f (arguments.map Binding.untyped) out =
      .function f' (arguments'.map Binding.untyped) out' ∧ r = r' := by
  simp only [detailBytes, List.append_assoc, List.cons_append, ← Binding.digestBytesOfAll_eq_flatMap]
    at h
  obtain ⟨hdisplay, hbehind⟩ := sizedBytes_append_inj hf.plain.size_lt hf'.plain.size_lt h
  obtain ⟨hvectorised, hbytes⟩ := List.cons.inj hbehind
  have hfunction : f = f' := hf.eq_of_display hf' hdisplay (Binding.toUInt8_inj hvectorised)
  subst hfunction
  obtain ⟨hall, hresult⟩ := Binding.digestBytesOfAll_append_inj
    (Binding.allSpoken_iff.2 harguments) (Binding.allSpoken_iff.2 harguments')
    (hf.arity.symm.trans hf'.arity) (follows_sizedBytes hout.plain _)
    (follows_sizedBytes hout'.plain _) hbytes
  obtain ⟨rfl, hrest⟩ := sizedName_append_inj hout hout' hresult
  rw [Binding.untypedAll_eq_map, Binding.untypedAll_eq_map] at hall
  exact ⟨congrArg (Operator.function f · out) hall, hrest⟩

/-- Assignments are read back up to the declared types of slots, before at most one input. -/
theorem assignmentsBytes_append_inj {vs ws : Assignments} {n : Nat} {r r' : List UInt8}
    (hvs : ∀ v ∈ vs, V.HasColumn v.1 ∧ v.2.Spoken V)
    (hws : ∀ w ∈ ws, V.HasColumn w.1 ∧ w.2.Spoken V) (hn : n ≤ 1) (hr : Behind n r)
    (hr' : Behind n r')
    (h : assignmentsBytes vs ++ (littleEndian 8 n ++ r) =
      assignmentsBytes ws ++ (littleEndian 8 n ++ r')) :
    (vs.map fun v => (v.1, v.2.untyped)) = (ws.map fun w => (w.1, w.2.untyped)) ∧ r = r' := by
  have hshort : n < UInt32.size := Nat.lt_of_le_of_lt hn (by decide)
  have hfollows {vs : Assignments} (hvs : ∀ v ∈ vs, V.HasColumn v.1 ∧ v.2.Spoken V)
      {r : List UInt8} (hr : Behind n r) :
      Follows true (assignmentsBytes vs ++ (littleEndian 8 n ++ r)) := by
    cases vs with
    | nil => exact hr.follows hshort
    | cons v vs =>
      simp only [assignmentsBytes, List.flatMap_cons, List.append_assoc]
      exact follows_sizedBytes (hvs v List.mem_cons_self).1.plain _
  have hne {v : Column × Binding} {x r : List UInt8} (hv : V.HasColumn v.1) (hr : Behind n r) :
      littleEndian 8 n ++ r ≠ sizedBytes v.1.name ++ (v.2.digestBytes ++ x) := by
    apply hr.ne_sizedBytes hn hv.plain
    intro _
    obtain ⟨tag, rest, hbytes, htag⟩ := v.2.exists_digestBytes_eq
    exact ⟨tag, rest ++ x, by rw [hbytes, List.cons_append], htag⟩
  induction vs generalizing ws with
  | nil =>
    cases ws with
    | nil => exact ⟨rfl, List.append_cancel_left h⟩
    | cons w ws =>
      simp only [assignmentsBytes, List.flatMap_cons, List.flatMap_nil, List.nil_append,
        List.append_assoc] at h
      exact absurd h (hne (hws w List.mem_cons_self).1 hr)
  | cons v vs ih =>
    have hv := hvs v List.mem_cons_self
    have hrest := fun v hv => hvs v (List.mem_cons_of_mem _ hv)
    cases ws with
    | nil =>
      simp only [assignmentsBytes, List.flatMap_cons, List.flatMap_nil, List.nil_append,
        List.append_assoc] at h
      exact absurd h.symm (hne hv.1 hr')
    | cons w ws =>
      have hw := hws w List.mem_cons_self
      have hrest' := fun w hw => hws w (List.mem_cons_of_mem _ hw)
      simp only [assignmentsBytes, List.flatMap_cons, List.append_assoc] at h ih
      obtain ⟨hcolumn, hbehind⟩ := sizedName_append_inj hv.1 hw.1 h
      obtain ⟨hbinding, hbehind⟩ := Binding.digestBytes_append_inj hv.2 hw.2 (hfollows hrest hr)
        (hfollows hrest' hr') hbehind
      obtain ⟨hall, hbehind⟩ := ih hrest hrest' hbehind
      rw [List.map_cons, List.map_cons, hcolumn, hbinding, hall]
      exact ⟨rfl, hbehind⟩

end Operator

/-! ## Operators -/

namespace LogicalOperator

/-- Whether an operator is given only what a vocabulary has. -/
def Spoken (V : Vocabulary) : LogicalOperator → Prop
  | scan t cs => V.HasTable t ∧ V.HasColumns cs
  | sample t cs _ _ => V.HasTable t ∧ V.HasColumns cs
  | filter p => p.Spoken V
  | subselect p => p.Spoken V
  | function f arguments out =>
    V.HasFunction f arguments.length ∧ (∀ a ∈ arguments, a.Spoken V) ∧ V.HasColumn out
  | fetch t cs => V.HasTable t ∧ V.HasColumns cs
  | projection p => ∀ c ∈ p.requires, V.HasColumn c
  | sort order => order.length < UInt64.size ∧ ∀ key ∈ order, V.HasColumn key.1
  | limit _ => True
  | union _ => True
  | intersect => True
  | insert t values => V.HasTable t ∧ ∀ v ∈ values, V.HasColumn v.1 ∧ v.2.Spoken V
  | update t values => V.HasTable t ∧ ∀ v ∈ values, V.HasColumn v.1 ∧ v.2.Spoken V
  | delete t => V.HasDeleted t

theorem name_size (op : LogicalOperator) : op.implement.name.utf8ByteSize < UInt64.size := by
  cases op <;> simp only [implement, Operator.name] <;> decide

/-- An operator can be read back up to the declared types of slots, with its number of inputs. -/
theorem digestBytes_append_inj {op op' : LogicalOperator} {n n' : Nat} {r r' : List UInt8}
    (hop : op.Spoken V) (hop' : op'.Spoken V) (hn : op.implement.arity.admits n = true)
    (hn' : op'.implement.arity.admits n' = true) (hshort : n < UInt32.size) (hshort' : n' < UInt32.size)
    (hr : Behind n r) (hr' : Behind n' r')
    (h : op.implement.digestBytes ++ (littleEndian 8 n ++ r) =
      op'.implement.digestBytes ++ (littleEndian 8 n' ++ r')) :
    op.implement.untyped = op'.implement.untyped ∧ n = n' ∧ r = r' := by
  have hword {r r' : List UInt8} (h : littleEndian 8 n ++ r = littleEndian 8 n' ++ r') :
      n = n' ∧ r = r' :=
    littleEndian_append_inj (Nat.lt_trans hshort (by decide)) (Nat.lt_trans hshort' (by decide)) h
  have hfollows := hr.follows hshort
  have hfollows' := hr'.follows hshort'
  simp only [Operator.digestBytes, List.append_assoc] at h
  obtain ⟨hname, hdetails⟩ := sizedBytes_append_inj op.name_size op'.name_size h
  clear h
  cases op with
  | scan t cs =>
    cases op' with
    | scan t' cs' =>
      simp only [implement, Operator.detailBytes, List.append_assoc] at hdetails
      obtain ⟨rfl, hcolumns⟩ := Operator.tableBytes_append_inj hop.1 hop'.1 hdetails
      obtain ⟨rfl, hparts⟩ := Operator.columnsBytes_append_inj hop.2 hop'.2 hcolumns
      exact ⟨rfl, hword (List.append_cancel_left (List.append_cancel_left hparts))⟩
    | _ => simp [implement, Operator.name] at hname
  | sample t cs p seed =>
    cases op' with
    | sample t' cs' p' seed' =>
      simp only [implement, Operator.detailBytes, List.append_assoc] at hdetails
      obtain ⟨rfl, hcolumns⟩ := Operator.tableBytes_append_inj hop.1 hop'.1 hdetails
      obtain ⟨rfl, hparts⟩ := Operator.columnsBytes_append_inj hop.2 hop'.2 hcolumns
      obtain ⟨hp, hseed⟩ := littleEndian_append_inj p.bits.isLt p'.bits.isLt hparts
      obtain ⟨rfl, hrest⟩ := bytes64_append_inj hseed
      have hprobability : p = p' := congrArg Binary.mk (BitVec.eq_of_toNat_eq hp)
      rw [hprobability]
      exact ⟨rfl, hword hrest⟩
    | _ => simp [implement, Operator.name] at hname
  | filter p =>
    cases op' with
    | filter p' =>
      obtain ⟨hpredicate, hrest⟩ :=
        Predicate.digestBytes_append_inj hop hop' hfollows hfollows' hdetails
      exact ⟨congrArg Operator.filter hpredicate, hword hrest⟩
    | _ => simp [implement, Operator.name] at hname
  | subselect p =>
    cases op' with
    | subselect p' =>
      obtain ⟨hpredicate, hrest⟩ :=
        Predicate.digestBytes_append_inj hop hop' hfollows hfollows' hdetails
      exact ⟨congrArg Operator.subselect hpredicate, hword hrest⟩
    | _ => simp [implement, Operator.name] at hname
  | function f arguments out =>
    cases op' with
    | function f' arguments' out' =>
      obtain ⟨hf, harguments, hout⟩ := hop
      obtain ⟨hf', harguments', hout'⟩ := hop'
      obtain ⟨hcall, hrest⟩ :=
        Operator.callBytes_append_inj hf hf' harguments harguments' hout hout' hdetails
      exact ⟨hcall, hword hrest⟩
    | _ => simp [implement, Operator.name] at hname
  | fetch t cs =>
    cases op' with
    | fetch t' cs' =>
      simp only [implement, Operator.detailBytes, List.append_assoc] at hdetails
      obtain ⟨rfl, hcolumns⟩ := Operator.tableBytes_append_inj hop.1 hop'.1 hdetails
      obtain ⟨rfl, hrest⟩ := Operator.columnsBytes_append_inj hop.2 hop'.2 hcolumns
      exact ⟨rfl, hword hrest⟩
    | _ => simp [implement, Operator.name] at hname
  | projection p =>
    cases op' with
    | projection p' =>
      have harity (p : Projection) : (Operator.projection p).arity = .exactly 1 := by
        cases p <;> rfl
      have hone : n = 1 := by simpa [implement, harity, Arity.admits] using hn
      have hone' : n' = 1 := by simpa [implement, harity, Arity.admits] using hn'
      subst hone hone'
      obtain ⟨rfl, hrest⟩ := Operator.projectionBytes_append_inj hop hop' hr hr' hdetails
      exact ⟨rfl, rfl, hrest⟩
    | _ => simp [implement, Operator.name] at hname
  | sort order =>
    cases op' with
    | sort order' =>
      obtain ⟨rfl, hrest⟩ := Operator.orderBytes_append_inj hop.1 hop'.1 hop.2 hop'.2 hdetails
      exact ⟨rfl, hword hrest⟩
    | _ => simp [implement, Operator.name] at hname
  | limit bounds =>
    cases op' with
    | limit bounds' =>
      obtain ⟨rfl, hrest⟩ := Operator.boundsBytes_append_inj hdetails
      exact ⟨rfl, hword hrest⟩
    | _ => simp [implement, Operator.name] at hname
  | union distinct =>
    cases op' with
    | union distinct' =>
      obtain ⟨hdistinct, hrest⟩ := List.cons.inj hdetails
      rw [Binding.toUInt8_inj hdistinct]
      exact ⟨rfl, hword hrest⟩
    | _ => simp [implement, Operator.name] at hname
  | intersect =>
    cases op' with
    | intersect => exact ⟨rfl, hword hdetails⟩
    | _ => simp [implement, Operator.name] at hname
  | insert t values =>
    cases op' with
    | insert t' values' =>
      have hzero : n = 0 := eq_of_beq hn
      have hzero' : n' = 0 := eq_of_beq hn'
      subst hzero hzero'
      simp only [implement, Operator.detailBytes, List.append_assoc] at hdetails
      obtain ⟨rfl, hbehind⟩ := Operator.tableBytes_append_inj hop.1 hop'.1 hdetails
      obtain ⟨hvalues, hrest⟩ := Operator.assignmentsBytes_append_inj hop.2 hop'.2
        (Nat.zero_le 1) hr hr' hbehind
      exact ⟨congrArg (Operator.insert t) hvalues, rfl, hrest⟩
    | _ => simp [implement, Operator.name] at hname
  | update t values =>
    cases op' with
    | update t' values' =>
      have hone : n = 1 := eq_of_beq hn
      have hone' : n' = 1 := eq_of_beq hn'
      subst hone hone'
      simp only [implement, Operator.detailBytes, List.append_assoc] at hdetails
      obtain ⟨rfl, hbehind⟩ := Operator.tableBytes_append_inj hop.1 hop'.1 hdetails
      obtain ⟨hvalues, hrest⟩ := Operator.assignmentsBytes_append_inj hop.2 hop'.2
        (Nat.le_refl 1) hr hr' hbehind
      exact ⟨congrArg (Operator.update t) hvalues, rfl, hrest⟩
    | _ => simp [implement, Operator.name] at hname
  | delete t =>
    cases op' with
    | delete t' =>
      have ht : V.HasDeleted t := hop
      have ht' : V.HasDeleted t' := hop'
      obtain ⟨hnamed, hrest⟩ := sizedBytes_append_inj ht.named ht'.named hdetails
      have htable : t = t' := by rw [← ht.known, hnamed, ht'.known]
      rw [htable]
      exact ⟨rfl, hword hrest⟩
    | _ => simp [implement, Operator.name] at hname

end LogicalOperator

/-! ## Digests do not show types of slots -/

namespace Binding

mutual

theorem digestBytes_untyped : ∀ b : Binding, b.untyped.digestBytes = b.digestBytes
  | literal _ _ => rfl
  | column _ => rfl
  | call f arguments => by
    rw [untyped, digestBytes, digestBytes, digestBytesOfAll_untypedAll arguments]
  | subquery _ _ => rfl

theorem digestBytesOfAll_untypedAll :
    ∀ bs : List Binding, digestBytesOfAll (untypedAll bs) = digestBytesOfAll bs
  | [] => rfl
  | b :: rest => by
    rw [untypedAll, digestBytesOfAll, digestBytesOfAll, digestBytes_untyped b,
      digestBytesOfAll_untypedAll rest]

end

theorem flatMap_digestBytes_untyped (bs : List Binding) :
    (bs.map untyped).flatMap digestBytes = bs.flatMap digestBytes := by
  rw [← digestBytesOfAll_eq_flatMap, ← untypedAll_eq_map, digestBytesOfAll_untypedAll,
    digestBytesOfAll_eq_flatMap]

end Binding

theorem Predicate.digestBytes_untyped (p : Predicate) : p.untyped.digestBytes = p.digestBytes := by
  induction p with
  | literal value => rfl
  | atom c negated =>
    rw [untyped, digestBytes, digestBytes, Comparison.digestBytes, Comparison.digestBytes,
      Comparison.name_untyped, Comparison.bindings_untyped, List.length_map,
      Binding.flatMap_digestBytes_untyped]
  | both left right ihl ihr => rw [untyped, digestBytes, digestBytes, ihl, ihr]
  | either left right ihl ihr => rw [untyped, digestBytes, digestBytes, ihl, ihr]

theorem Operator.digestBytes_untyped (op : Operator) : op.untyped.digestBytes = op.digestBytes := by
  have hvalues (values : Assignments) :
      assignmentsBytes (values.map fun v => (v.1, v.2.untyped)) = assignmentsBytes values := by
    rw [assignmentsBytes, assignmentsBytes, List.flatMap_map]
    exact List.flatMap_congr fun v _ => by rw [Binding.digestBytes_untyped]
  cases op with
  | filter p => exact congrArg (sizedBytes "Filter" ++ ·) p.digestBytes_untyped
  | subselect p => exact congrArg (sizedBytes "FilterOnSubSelect" ++ ·) p.digestBytes_untyped
  | function f arguments out =>
    simp only [untyped, digestBytes, name, detailBytes, Binding.flatMap_digestBytes_untyped]
  | insert t values => simp only [untyped, digestBytes, name, detailBytes, hvalues]
  | update t values => simp only [untyped, digestBytes, name, detailBytes, hvalues]
  | _ => rfl

/-! ## Plans -/

theorem PhysicalPlan.digestBytes_node (g : GroupId) (op : Operator) (inputs : List PhysicalPlan) :
    digestBytes (.node g op inputs) = op.digestBytes ++ littleEndian 8 inputs.length ++
      (inputs.map digestBytes).flatten := by
  rw [digestBytes, PlanTree.fold_node, List.length_map]
  rfl

namespace LogicalPlan

/-- Whether all nodes of a plan are given only what a vocabulary has. -/
def Spoken (V : Vocabulary) (t : LogicalPlan) : Prop :=
  t.fold fun _ op inputs below =>
    op.Spoken V ∧ inputs.length < UInt32.size ∧ ∀ spoken ∈ below, spoken

theorem spoken_node {g : GroupId} {op : LogicalOperator} {inputs : List LogicalPlan} :
    Spoken V (.node g op inputs) ↔
      op.Spoken V ∧ inputs.length < UInt32.size ∧ ∀ t ∈ inputs, Spoken V t := by
  rw [Spoken, PlanTree.fold_node, List.forall_mem_map]
  rfl

/-- The groups of all sub-queries of a plan, in the order of its nodes. -/
def subqueryGroups (t : LogicalPlan) : List GroupId :=
  t.fold fun _ op inputs below => op.implement.readGroups (inputs.map PlanTree.group) ++ below.flatten

theorem subqueryGroups_node (g : GroupId) (op : LogicalOperator) (inputs : List LogicalPlan) :
    subqueryGroups (.node g op inputs) =
      op.implement.readGroups (inputs.map PlanTree.group) ++
        (inputs.map subqueryGroups).flatten := by
  rw [subqueryGroups, PlanTree.fold_node]
  rfl

theorem digestBytes_node (g : GroupId) (op : LogicalOperator) (inputs : List LogicalPlan) :
    digestBytes (.node g op inputs) = sizedBytes "logical" ++ op.implement.digestBytes ++
      littleEndian 8 inputs.length ++ (inputs.map digestBytes).flatten := by
  rw [digestBytes, PlanTree.fold_node, List.length_map]
  rfl

theorem group_implement (t : LogicalPlan) : t.implement.group = t.group := by
  obtain ⟨g, op, inputs⟩ := t
  rw [implement_node]
  rfl

theorem behind_digestBytes (t : LogicalPlan) (n : Nat) (r : List UInt8) :
    Behind n (t.digestBytes ++ r) := by
  obtain ⟨g, op, inputs⟩ := t
  have hsize : "logical".utf8ByteSize = 7 := by decide
  rw [digestBytes_node, sizedBytes, hsize, littleEndian_succ]
  exact .plan n _

theorem behind_inputs {inputs : List LogicalPlan} {n : Nat} {r : List UInt8} (hr : Behind 0 r)
    (hn : inputs = [] → n = 0) : Behind n ((inputs.map digestBytes).flatten ++ r) := by
  cases inputs with
  | nil => exact hn rfl ▸ hr
  | cons t rest =>
    rw [List.map_cons, List.flatten_cons, List.append_assoc]
    exact t.behind_digestBytes _ _

theorem arity_of_validate {g : GroupId} {op : LogicalOperator} {inputs : List LogicalPlan}
    (h : validate (.node g op inputs) = .ok ()) :
    op.implement.arity.admits inputs.length = true ∧ ∀ t ∈ inputs, t.validate = .ok () := by
  rw [validate, implement_node, PhysicalPlan.validate_node, Operator.check_eq_ok] at h
  obtain ⟨⟨harity, -⟩, hinputs⟩ := h
  rw [List.length_map, List.length_map] at harity
  exact ⟨harity, List.forall_mem_map.1 hinputs⟩

/-- Valid plans of one vocabulary are read back, with the groups of their sub-queries apart, up to
what no operator looks at. -/
theorem digestBytes_append_inj {t u : LogicalPlan} {r r' : List UInt8} {gs gs' : List GroupId}
    (ht : t.validate = .ok ()) (hu : u.validate = .ok ()) (hspoken : t.Spoken V)
    (hspoken' : u.Spoken V) (hr : Behind 0 r) (hr' : Behind 0 r')
    (h : t.digestBytes ++ r = u.digestBytes ++ r')
    (hgroups : t.subqueryGroups ++ gs = u.subqueryGroups ++ gs') :
    t.implement.Same u.implement ∧ r = r' ∧ gs = gs' := by
  induction t using PlanTree.induct generalizing u r r' gs gs' with
  | node g op inputs ih =>
    obtain ⟨g', op', inputs'⟩ := u
    obtain ⟨hop, hshort, hall⟩ := spoken_node.1 hspoken
    obtain ⟨hop', hshort', hall'⟩ := spoken_node.1 hspoken'
    obtain ⟨harity, hvalid⟩ := arity_of_validate ht
    obtain ⟨harity', hvalid'⟩ := arity_of_validate hu
    simp only [digestBytes_node, List.append_assoc] at h
    obtain ⟨huntyped, hlength, hbehind⟩ := LogicalOperator.digestBytes_append_inj hop hop' harity
      harity' hshort hshort' (behind_inputs hr fun hnil => by rw [hnil, List.length_nil])
      (behind_inputs hr' fun hnil => by rw [hnil, List.length_nil]) (List.append_cancel_left h)
    have hread (op : LogicalOperator) (groups : List GroupId) :
        op.implement.readGroups groups = op.implement.untyped.readGroups groups := by
      cases op <;> rfl
    rw [subqueryGroups_node, subqueryGroups_node, List.append_assoc, List.append_assoc, hread op,
      hread op', huntyped] at hgroups
    have hcounts : (op'.implement.untyped.readGroups (inputs.map PlanTree.group)).length =
        (op'.implement.untyped.readGroups (inputs'.map PlanTree.group)).length := by
      cases op' <;> simp [LogicalOperator.implement, Operator.untyped, Operator.readGroups, hlength]
    obtain ⟨hown, hbelow⟩ := List.append_inj hgroups hcounts
    have hinputs : List.Forall₂ PhysicalPlan.Same (inputs.map implement) (inputs'.map implement) ∧
        r = r' ∧ gs = gs' := by
      clear h hgroups hown hcounts huntyped ht hu hspoken hspoken' harity harity' hshort hshort'
      induction inputs generalizing inputs' with
      | nil =>
        cases inputs' with
        | nil => exact ⟨.nil, hbehind, hbelow⟩
        | cons u rest' => cases hlength
      | cons t rest ihrest =>
        cases inputs' with
        | nil => cases hlength
        | cons u rest' =>
          simp only [List.map_cons, List.flatten_cons, List.append_assoc] at hbehind hbelow
          obtain ⟨hfirst, hbytes, hrest⟩ := ih t List.mem_cons_self
            (hvalid t List.mem_cons_self) (hvalid' u List.mem_cons_self)
            (hall t List.mem_cons_self) (hall' u List.mem_cons_self)
            (behind_inputs hr fun _ => rfl) (behind_inputs hr' fun _ => rfl) hbehind hbelow
          obtain ⟨hsame, hends⟩ := ihrest (fun v hv => ih v (List.mem_cons_of_mem _ hv)) rest'
            (fun v hv => hall v (List.mem_cons_of_mem _ hv))
            (fun v hv => hall' v (List.mem_cons_of_mem _ hv))
            (fun v hv => hvalid v (List.mem_cons_of_mem _ hv))
            (fun v hv => hvalid' v (List.mem_cons_of_mem _ hv)) (Nat.succ.inj hlength) hbytes hrest
          exact ⟨.cons hfirst hsame, hends⟩
    have hmaps (inputs : List LogicalPlan) :
        (inputs.map implement).map PlanTree.group = inputs.map PlanTree.group := by
      rw [List.map_map]
      exact List.map_congr_left fun v _ => v.group_implement
    refine ⟨?_, hinputs.2⟩
    rw [implement_node, implement_node, PhysicalPlan.same_node, hmaps, hmaps, hread op, hread op',
      huntyped]
    exact ⟨rfl, hown, hinputs.1⟩

/-- Plans that are the same have one digest and the same groups of sub-queries. -/
theorem digestBytes_of_same {t u : LogicalPlan} (h : t.implement.Same u.implement) :
    t.digestBytes = u.digestBytes ∧ t.subqueryGroups = u.subqueryGroups := by
  induction t using PlanTree.induct generalizing u with
  | node g op inputs ih =>
    obtain ⟨g', op', inputs'⟩ := u
    rw [implement_node, implement_node, PhysicalPlan.same_node, List.forall₂_map_left_iff,
      List.forall₂_map_right_iff] at h
    obtain ⟨huntyped, hread, hinputs⟩ := h
    have hmaps (inputs : List LogicalPlan) :
        (inputs.map implement).map PlanTree.group = inputs.map PlanTree.group := by
      rw [List.map_map]
      exact List.map_congr_left fun v _ => v.group_implement
    have hbelow : inputs.map digestBytes = inputs'.map digestBytes ∧
        inputs.map subqueryGroups = inputs'.map subqueryGroups := by
      clear hread
      induction hinputs with
      | nil => exact ⟨rfl, rfl⟩
      | @cons v w rest rest' hvw _ ihrest =>
        obtain ⟨hdigest, hgroups⟩ := ih v List.mem_cons_self hvw
        obtain ⟨hdigests, hall⟩ := ihrest fun v hv => ih v (List.mem_cons_of_mem _ hv)
        simp only [List.map_cons, hdigest, hgroups, hdigests, hall, and_self]
    rw [hmaps, hmaps] at hread
    rw [digestBytes_node, digestBytes_node, subqueryGroups_node, subqueryGroups_node, hread,
      hbelow.1, hbelow.2, hinputs.length_eq, ← Operator.digestBytes_untyped, huntyped,
      Operator.digestBytes_untyped]
    exact ⟨rfl, rfl⟩

/-- Among valid plans of one vocabulary, equal digests and equal groups of sub-queries mean the same
plan up to what no operator looks at, and such plans run alike, whenever their workers pull, if these
stay apart. -/
theorem equal_digests_run_alike {V : Vocabulary} {t u : LogicalPlan} (ht : t.validate = .ok ())
    (hu : u.validate = .ok ()) (hspoken : t.Spoken V) (hspoken' : u.Spoken V) :
    (t.digestBytes = u.digestBytes ∧ t.subqueryGroups = u.subqueryGroups ↔
      t.implement.Same u.implement) ∧
    (t.digestBytes = u.digestBytes → t.subqueryGroups = u.subqueryGroups →
      ∀ limits : RunLimits, (0 < limits.maxWorkers → t.implement.Apart ∧ u.implement.Apart) →
        limits.channelCapacity < Lowering.channelBound → ∀ q e x y,
        t.implement.CanComeTo limits q e x → u.implement.CanComeTo limits q e y →
          SameExecution x y) := by
  have hsame (hdigest : t.digestBytes = u.digestBytes)
      (hgroups : t.subqueryGroups = u.subqueryGroups) : t.implement.Same u.implement := by
    have hdigest' : t.digestBytes ++ [] = u.digestBytes ++ [] := congrArg (· ++ []) hdigest
    have hgroups' : t.subqueryGroups ++ [] = u.subqueryGroups ++ [] := congrArg (· ++ []) hgroups
    exact (digestBytes_append_inj ht hu hspoken hspoken' .nothing .nothing hdigest' hgroups').1
  constructor
  · constructor
    · rintro ⟨hdigest, hgroups⟩
      exact hsame hdigest hgroups
    · exact digestBytes_of_same
  · intro hdigest hgroups limits happart hroom q e x y hx hy
    exact (hsame hdigest hgroups).canComeTo (fun hworkers => (happart hworkers).1)
      (fun hworkers => (happart hworkers).2) hroom hx hy

/-! ### Two tables of one name -/

namespace Namesakes

def column : Column := ⟨"t.x", .long, false⟩

def table : Table := ⟨"t", [column], [(0, [.long 0]), (1, [.long 1])], 2, [], 0⟩

def engine : EngineState := ⟨⟨[table, table]⟩, .empty⟩

def handle (n : Nat) : TableHandle := engine.store.handle n

/-- Deletes the rows of the first table from a table. -/
def deletion (n : Nat) : LogicalPlan :=
  .node 0 (.delete (handle n)) [.node 0 (.scan (handle 0) [column]) []]

/-- Rows that equal a slot of some declared type. -/
def selection (g : GroupId) (type : Option ColumnType) : LogicalPlan :=
  .node g (.filter (.atom (.relation .equal (.column column) (.literal 0 type)) false))
    [.node 0 (.scan (handle 0) [column]) []]

def query : QueryContext := ⟨.none, .standard, ⟨[some (.long 1)], []⟩, 0, false⟩

def limits : RunLimits := ⟨2, 0, true⟩

/-- Every name stands for the first table or its column. -/
def vocabulary : Vocabulary where
  column _ := column
  function _ _ := .ofKernel ⟨"f", [], .long⟩ ⟨.zero, fun _ => .ok .null⟩
  table _ := handle 0
  deleted _ := handle 0

theorem hasColumn : vocabulary.HasColumn column := by
  have hprintable : (utf8Bytes column.name).all (fun b => 32 ≤ b) = true := by decide
  exact ⟨⟨fun b hb => of_decide_eq_true (List.all_eq_true.1 hprintable b hb), by decide⟩, rfl⟩

theorem spoken_selection (g : GroupId) (type : Option ColumnType) :
    (selection g type).Spoken vocabulary := by
  have hscan : (LogicalOperator.scan (handle 0) [column]).Spoken vocabulary :=
    ⟨⟨by decide, by decide, rfl⟩, by decide, fun c hc => List.mem_singleton.1 hc ▸ hasColumn⟩
  have hspoken (b : Binding) (hb : b ∈ [.column column, .literal 0 type]) : b.Spoken vocabulary := by
    rcases List.mem_cons.1 hb with rfl | hb
    · exact hasColumn
    · rw [List.mem_singleton.1 hb]
      exact Nat.two_pow_pos 64
  apply spoken_node.2
  refine ⟨⟨show 2 < UInt64.size by decide, hspoken⟩, show 1 < UInt32.size by decide, ?_⟩
  intro t ht
  rw [List.mem_singleton.1 ht]
  exact spoken_node.2 ⟨hscan, show 0 < UInt32.size by decide, fun _ h => nomatch h⟩

end Namesakes

open Namesakes in
/-- One selection is run by its consumer alone, the other one over a scan on a worker. -/
theorem equal_digests_run_alike_selection : ∃ u,
    (selection 0 (some .long)).digestBytes = (selection 7 none).digestBytes ∧
    PhysicalPlan.Schedules limits (query.runState engine) (selection 7 none).implement
      (selection 7 none).implement u ∧
    (u.run (query.runState engine)).rows = [⟨1, [column], [.long 1]⟩] ∧
    SameExecution ((selection 0 (some .long)).implement.execute limits query engine)
      (pure (u.run (query.runState engine))) := by
  have hdigest : (selection 0 (some .long)).digestBytes = (selection 7 none).digestBytes := by decide
  have hvalid : (selection 0 (some .long)).validate = .ok () := by decide
  have hvalid' : (selection 7 none).validate = .ok () := by decide
  obtain ⟨-, hrun⟩ := equal_digests_run_alike hvalid hvalid' (spoken_selection 0 _)
    (spoken_selection 7 _)
  have hworker : ∃ u, PhysicalPlan.Schedules limits (query.runState engine)
      (selection 7 none).implement (selection 7 none).implement u ∧
      (u.run (query.runState engine)).rows = [⟨1, [column], [.long 1]⟩] := by
    exact ⟨_, .single (.leaf rfl) (.worker (by decide) (by decide) .empty _) rfl, by decide +kernel⟩
  obtain ⟨u, hu, hrows⟩ := hworker
  have happart : (selection 0 (some .long)).implement.Apart ∧ (selection 7 none).implement.Apart :=
    ⟨by decide +kernel, by decide +kernel⟩
  exact ⟨u, hdigest, hu, hrows, hrun hdigest (by decide) limits (fun _ => happart) (by decide) query
    engine _ _ (.inl rfl) (.inr ⟨_, u, rfl, hu, rfl⟩)⟩

open Namesakes in
/-- A digest does not tell from which of two tables of one name rows are deleted. -/
theorem equal_digests_delete_apart : handle 0 ≠ handle 1 ∧
    (deletion 0).validate = .ok () ∧ (deletion 1).validate = .ok () ∧
    (deletion 0).digestBytes = (deletion 1).digestBytes ∧ ∃ r r',
      (deletion 0).implement.execute limits query engine = pure r ∧
      (deletion 1).implement.execute limits query engine = pure r' ∧
      ((r.state.store.table 0).rows = [] ∧ (r.state.store.table 1).rows = table.rows) ∧
      (r'.state.store.table 0).rows = table.rows ∧ (r'.state.store.table 1).rows = [] :=
  ⟨by decide, by decide, by decide, by decide, _, _, rfl, rfl, by decide, by decide⟩

end LogicalPlan

end QueryEngine
