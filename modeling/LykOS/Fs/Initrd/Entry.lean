import LykOS.Fs.Initrd.Model

/-!
# Entries of an archive

What `process_entry` does with a header. A name that fills its field of 100 bytes has no NUL behind it, so
the kernel reads the mode behind it as a part of the name. `Entry.effective` are the components that it
sees; the last one is the name of the node, and the first one that does not exist ends the search for the
parent (`processEntry_eq`).
-/

namespace LykOS.Initrd

open CStr Vfs Pathname List

/-! ## Octal fields -/

def octalDigits : List UInt8 := [48, 49, 50, 51, 52, 53, 54, 55]

/-- The number that is written in octal, behind `n`. -/
def octalFrom (n : ℕ) (digits : List UInt8) : ℕ := digits.foldl (fun n d => 8 * n + (d.toNat - 48)) n

def octal (digits : List UInt8) : ℕ := octalFrom 0 digits

theorem octal_digit {d : UInt8} (h : d ∈ octalDigits) :
    d ≠ 0 ∧ d ≠ slash ∧ d ≠ dot ∧ d.toInt8.toInt64.toUInt64 - 48 = UInt64.ofNat (d.toNat - 48) := by
  unfold octalDigits at h
  simp only [mem_cons, not_mem_nil, or_false] at h
  rcases h with rfl | rfl | rfl | rfl | rfl | rfl | rfl | rfl <;> decide

theorem ustarReadField_digits {digits : List UInt8} (h : ∀ d ∈ digits, d ∈ octalDigits)
    {rest : List UInt8} {size : ℕ}
    (hend : digits.length = size ∨ digits.length < size ∧ rest.head? = some 0) (n : ℕ) :
    ustarReadField size (UInt64.ofNat n) (digits ++ rest) = some (UInt64.ofNat (octalFrom n digits)) := by
  induction digits generalizing size n with
  | nil =>
    rcases hend with rfl | ⟨hlt, hhead⟩
    · rfl
    · obtain ⟨size, rfl⟩ := Nat.exists_eq_succ_of_ne_zero (Nat.ne_of_gt hlt)
      obtain ⟨r, rfl⟩ : ∃ r, rest = 0 :: r := by
        cases rest with
        | nil => cases hhead
        | cons a r => exact ⟨r, by rw [Option.some.inj hhead]⟩
      rfl
  | cons d digits ih =>
    obtain ⟨hd, -, -, hval⟩ := octal_digit (h d mem_cons_self)
    rw [length_cons] at hend
    obtain ⟨size, rfl⟩ := Nat.exists_eq_succ_of_ne_zero (show size ≠ 0 by omega)
    have hstep : UInt64.ofNat n * 8 + UInt64.ofNat (d.toNat - 48) =
        UInt64.ofNat (8 * n + (d.toNat - 48)) := by
      rw [UInt64.ofNat_add, UInt64.ofNat_mul, UInt64.mul_comm]
      rfl
    rw [cons_append, ustarReadField, if_neg hd, hval, hstep,
      ih (fun e he => h e (mem_cons_of_mem _ he))
        (hend.imp (fun h => by omega) fun h => ⟨by omega, h.2⟩)]
    rfl

theorem advance_mod (size : UInt64) :
    advance size = ((size.toNat % 2 ^ 32 + 511) % 2 ^ 32 / 512 + 1) * 512 % 2 ^ 32 := by
  have hsize : size.toUInt32.toNat = size.toNat % 2 ^ 32 := UInt64.toNat_toUInt32 _
  unfold advance
  simp only [UInt32.toNat_mul, UInt32.toNat_add, UInt32.toNat_div, UInt32.toNat_sub, hsize,
    UInt32.reduceToNat]
  omega

theorem advance_eq {size : ℕ} (h : size < 2 ^ 32 - 1024) :
    advance (UInt64.ofNat size) = 512 + 512 * ((size + 511) / 512) := by
  rw [advance_mod, UInt64.toNat_ofNat']
  omega

/-! ## Opening along a path -/

section

variable {ns ns' : Nodes} {vn : ℕ}

theorem openNode_none (ht : ns.Tree) (hvn : ns.node vn ≠ none) {name : CStr}
    (h : ns.child? vn name.chars = none) : ∃ st, st ≠ eok ∧ openNode ns vn name = some (st, none, ns) := by
  obtain ⟨⟨st, out, ns'⟩, hr⟩ := Option.ne_none_iff_exists'.mp (openNode_ne_none ht hvn name)
  have hout := openNode_some hr
  rw [h] at hout
  obtain ⟨rfl, rfl⟩ := Prod.mk.inj hout
  refine ⟨st, fun hst => ?_, hr⟩
  obtain ⟨node, -, hr⟩ := Option.bind_eq_some_iff.mp hr
  split_ifs at hr
  · cases hr
    cases hst
  · obtain ⟨o, -, hr⟩ := Option.bind_eq_some_iff.mp hr
    cases o with
    | none =>
      cases hr
      cases hst
    | some c => cases hr

theorem openNode_eok {name : CStr} {st : ℤ} {out : Option ℕ}
    (h : openNode ns vn name = some (st, out, ns')) (hst : st = eok) :
    ∃ c, out = some c ∧ ns.child? vn name.chars = some c ∧ ns' = ns.hold c := by
  have hout := openNode_some h
  obtain ⟨node, -, h⟩ := Option.bind_eq_some_iff.mp h
  split_ifs at h
  · cases h
    cases hst
  · obtain ⟨o, -, h⟩ := Option.bind_eq_some_iff.mp h
    cases o with
    | none =>
      cases h
      cases hst
    | some c =>
      cases h
      obtain ⟨hc, -⟩ := Prod.mk.inj hout
      exact ⟨c, rfl, hc.symm, rfl⟩

/-- What walking the path of an entry with `open` leads to. -/
def openPath (ns : Nodes) : ℕ → List CStr → Option ℕ
  | vn, [] => some vn
  | vn, c :: cs => do
    let (st, out, ns) ← initrdOpen ns vn c
    guard (st = eok)
    openPath ns (← out) cs

theorem lookup_of_openPath {cs : List CStr} {u : ℕ} (h : openPath ns vn cs = some u) :
    ns.lookup vn (cs.map CStr.chars) = some u := by
  induction cs generalizing ns vn with
  | nil => exact h
  | cons c cs ih =>
    obtain ⟨⟨st, out, ns'⟩, hopen, h⟩ := Option.bind_eq_some_iff.mp h
    obtain ⟨_, hst, h⟩ := Option.bind_eq_some_iff.mp h
    obtain ⟨w, hw, h⟩ := Option.bind_eq_some_iff.mp h
    obtain ⟨w', rfl, hchild, rfl⟩ := openNode_eok hopen ((Option.guard_eq_some' _).mp hst)
    obtain rfl := Option.some.inj hw
    rw [map_cons, Nodes.lookup, hchild, Option.bind_some]
    rw [← ih h, lookup_hold]

theorem openPath_of_lookup (ht : ns.Tree) {cs : List CStr} {u : ℕ}
    (h : ns.lookup vn (cs.map CStr.chars) = some u) : openPath ns vn cs = some u := by
  induction cs generalizing ns vn with
  | nil => exact h
  | cons c cs ih =>
    rw [map_cons, Nodes.lookup] at h
    obtain ⟨w, hchild, h⟩ := Option.bind_eq_some_iff.mp h
    have hopen : openNode ns vn c = some (eok, some w, ns.hold w) := openNode_child ht hchild
    have hrest : (ns.hold w).lookup w (cs.map CStr.chars) = some u := by rw [lookup_hold, h]
    rw [openPath, initrdOpen, hopen]
    exact ih (show (ns.hold w).Tree from ht) hrest

end

/-! ## The search for the parent -/

section

variable {ns ns' : Nodes} {vn u : ℕ}

theorem strAt_cut {mem s rest : List UInt8} {p : ℕ} (hs : ∀ a ∈ s, a ≠ 0 ∧ a ≠ slash)
    {tail : List UInt8} (htail : ∀ a ∈ tail, a ≠ 0) (htail' : tail = [] ∨ ∃ t, tail = slash :: t)
    (hdrop : mem.drop p = s ++ tail ++ 0 :: rest) :
    (cutSlash mem p).length = mem.length ∧ (strAt (cutSlash mem p) p).chars = s ∧
      ∀ q, p + s.length < q → (cutSlash mem p).drop q = mem.drop q := by
  have hstr : (strAt mem p).chars = s ++ tail := by
    refine strAt_of_drop (fun a ha => ?_) hdrop
    rcases mem_append.mp ha with ha | ha
    · exact (hs a ha).1
    · exact htail a ha
  have hnone : s.findIdx? (· == slash) = none :=
    findIdx?_eq_none_iff.mpr fun a ha => by simpa using (hs a ha).2
  rcases htail' with rfl | ⟨t, rfl⟩
  · have hchr : strchr mem p slash = none := by
      unfold strchr
      rw [hstr, List.append_nil, hnone]
      rfl
    rw [cutSlash, hchr]
    exact ⟨rfl, by rw [hstr, List.append_nil], fun _ _ => rfl⟩
  · have hchr : strchr mem p slash = some (p + s.length) := by
      unfold strchr
      rw [hstr, findIdx?_append, hnone, findIdx?_cons]
      simp
    rw [cutSlash, hchr]
    refine ⟨length_set, ?_, fun q hq => drop_set_of_lt hq⟩
    rw [append_assoc, cons_append] at hdrop
    exact strAt_set (fun a ha => (hs a ha).1) hdrop

theorem walkLoop_round (ns : Nodes) (vn fuel : ℕ) {mem rest c : List UInt8} {p : ℕ}
    {cs : List (List UInt8)} (hgood : ∀ d ∈ c :: cs, GoodComp d)
    (hdrop : mem.drop p = joined (c :: cs) ++ 0 :: rest) :
    ∃ mem' comp, mem'.length = mem.length ∧ comp.chars = c ∧
      (∀ q, p + c.length < q → mem'.drop q = mem.drop q) ∧
      walkLoop (fuel + 1) mem ns vn p = (initrdOpen ns vn comp).bind fun r =>
        if r.1 = eok then r.2.1.bind fun next => walkLoop fuel mem' r.2.2 next (p + c.length + 1)
        else some (mem', r.2.2, vn) := by
  have hc := hgood c mem_cons_self
  have hnul := joined_no_nul hgood
  obtain ⟨tail, hjoin, htail⟩ : ∃ tail, joined (c :: cs) = c ++ tail ∧
      (tail = [] ∨ ∃ t, tail = slash :: t) := by
    by_cases hcs : cs = []
    · exact ⟨[], by rw [hcs, joined_singleton, List.append_nil], Or.inl rfl⟩
    · exact ⟨slash :: joined cs, joined_cons hcs, Or.inr ⟨_, rfl⟩⟩
  rw [hjoin] at hdrop hnul
  obtain ⟨hlen, hstr, hframe⟩ := strAt_cut
    (fun a ha => ⟨hc.no_nul a ha, hc.no_slash a ha⟩) (fun a ha => hnul a (mem_append_right _ ha)) htail
    hdrop
  refine ⟨cutSlash mem p, strAt (cutSlash mem p) p, hlen, hstr, hframe, ?_⟩
  obtain ⟨a, c', hac⟩ := exists_cons_of_ne_nil hc.ne_nil
  have hget : mem[p]? = some a := by
    rw [hac, append_assoc, cons_append] at hdrop
    exact get_of_drop hdrop
  have ha : a ≠ 0 := hc.no_nul a (by rw [hac]; exact mem_cons_self)
  have hmem0 : 0 ∈ mem.drop p := by
    rw [hdrop]
    exact mem_append_right _ mem_cons_self
  rw [walkLoop, hget]
  simp only [Option.bind_eq_bind, Option.bind_some, if_neg ha, guard, if_pos hmem0, pure, hstr]

theorem walkLoop_eq {b : List UInt8} {bs : List (List UInt8)} (as : List (List UInt8))
    {mem rest : List UInt8} {p fuel : ℕ} {ns : Nodes} {vn : ℕ} (ht : ns.Tree) (hvn : ns.node vn ≠ none)
    (hgood : ∀ d ∈ as ++ b :: bs, GoodComp d) (hdrop : mem.drop p = joined (as ++ b :: bs) ++ 0 :: rest)
    (hfuel : as.length < fuel) (hlook : ns.lookup vn as = some u) (hchild : ns.child? u b = none) :
    ∃ mem' ns', walkLoop fuel mem ns vn p = some (mem', ns', u) ∧ ns'.node = ns.node ∧
      ns'.next = ns.next ∧ mem'.length = mem.length ∧
        ∀ q, p + (joined (as ++ b :: bs)).length < q → mem'.drop q = mem.drop q := by
  induction as generalizing mem rest p fuel ns vn with
  | nil =>
    obtain ⟨fuel, rfl⟩ := Nat.exists_eq_succ_of_ne_zero (Nat.ne_of_gt hfuel)
    obtain rfl := Option.some.inj hlook
    obtain ⟨mem', comp, hlen, hcomp, hframe, hround⟩ :=
      walkLoop_round ns vn fuel hgood hdrop
    rw [← hcomp] at hchild
    obtain ⟨st, hst, hopen⟩ := openNode_none ht hvn hchild
    refine ⟨mem', ns, ?_, rfl, rfl, hlen, fun q hq => hframe q ?_⟩
    · rw [hround, initrdOpen, hopen, Option.bind_some, if_neg hst]
    · have hle : b.length ≤ (joined (b :: bs)).length := by
        by_cases hbs : bs = []
        · rw [hbs, joined_singleton]
        · rw [joined_cons hbs, length_append]
          exact Nat.le_add_right _ _
      rw [nil_append] at hq
      omega
  | cons a as ih =>
    obtain ⟨fuel, rfl⟩ := Nat.exists_eq_succ_of_ne_zero (Nat.ne_of_gt (Nat.zero_lt_of_lt hfuel))
    rw [length_cons] at hfuel
    obtain ⟨mem₁, comp, hlen₁, hcomp, hframe₁, hround⟩ :=
      walkLoop_round ns vn fuel hgood hdrop
    rw [Nodes.lookup] at hlook
    obtain ⟨w, hw, hlook⟩ := Option.bind_eq_some_iff.mp hlook
    have hopen : openNode ns vn comp = some (eok, some w, ns.hold w) :=
      openNode_child ht (by rw [hcomp]; exact hw)
    have hjoin : joined (a :: (as ++ b :: bs)) = a ++ slash :: joined (as ++ b :: bs) :=
      joined_cons (by simp)
    have hdrop₁ : mem₁.drop (p + a.length + 1) = joined (as ++ b :: bs) ++ 0 :: rest := by
      rw [hframe₁ _ (by omega), Nat.add_assoc, ← drop_drop, hdrop, cons_append, hjoin,
        append_assoc, ← drop_drop, drop_left]
      rfl
    obtain ⟨mem', ns', hloop, hnode, hnext, hlen, hframe⟩ := ih (show (ns.hold w).Tree from ht)
      (child?_node hw) (fun d hd => hgood d (mem_cons_of_mem _ hd)) hdrop₁
      (show as.length < fuel by omega)
      (by rw [lookup_hold, hlook]) hchild
    refine ⟨mem', ns', ?_, hnode, hnext, hlen.trans hlen₁, fun q hq => ?_⟩
    · rw [hround, initrdOpen, hopen, Option.bind_some, if_pos rfl, Option.bind_some, hloop]
    · rw [cons_append, hjoin, length_append, length_cons] at hq
      rw [hframe q (by omega), hframe₁ q (by omega)]

end

/-! ## Entries -/

/-- The type flag of an entry for a kind of vnode. -/
def typeFlag : VnodeType → Option UInt8
  | .reg => some 48
  | .char => some 51
  | .block => some 52
  | .dir => some 53
  | .fifo => some 54
  | .socket => none

theorem vnodeType_typeFlag {type : VnodeType} {c : UInt8} (h : typeFlag type = some c) :
    vnodeType c = some type := by
  cases type <;> cases h <;> rfl

/-- An entry: its name in parts, its mode as it is written, its type and size, and its bytes. -/
structure Entry where
  dotted : Bool
  comps : List CStr
  trailing : Bool
  mode : List UInt8
  type : VnodeType
  size : ℕ
  header : List UInt8
  content : List UInt8

namespace Entry

def names (e : Entry) : List (List UInt8) := e.comps.map CStr.chars

def raw (e : Entry) : List UInt8 := decorated e.dotted e.trailing e.names

/-- The entry is one of a USTAR archive, with a name that is considered, which fills its field or has a NUL
behind it. A mode is written in octal, with blanks, and has a NUL behind it; it matters only where the name
has none. -/
structure Valid (e : Entry) : Prop where
  header_length : e.header.length = 512
  comps_ne : e.comps ≠ []
  good : ∀ c ∈ e.comps, c.chars ≠ [] ∧ c.chars.length ≤ 63 ∧ slash ∉ c.chars ∧ c.chars.getLast? ≠ some dot
  name_length : (joined e.names).length ≤ 99
  filename : e.raw.length ≤ modeField ∧ e.header.take e.raw.length = e.raw ∧
    (e.raw.length < modeField → e.header[e.raw.length]? = some 0)
  filemode : e.raw.length = modeField → (∀ c ∈ e.mode, c ∈ octalDigits ∨ c = 32) ∧
    ∃ pad, (e.header.drop modeField).take 8 = e.mode ++ 0 :: pad
  typeflag : ∃ c, typeFlag e.type = some c ∧ e.header[typeField]? = some c
  filesize : ∃ digits pad, (e.header.drop sizeField).take 12 = digits ++ pad ∧
    (∀ d ∈ digits, d ∈ octalDigits) ∧ (pad = [] ∨ pad.head? = some 0) ∧ octal digits = e.size
  size_lt : e.size < 2 ^ 32 - 1024
  magic : (e.header.drop magicField).take 6 = ustarMagic ++ [0]
  content_length : e.content.length = 512 * ((e.size + 511) / 512)

/-- The field of the name has a NUL behind the name, or what follows it does no harm: there is no mode, or
the mode is read as one more component and is the same as the last one. -/
def Terminated (e : Entry) : Prop :=
  e.raw.length < modeField ∨ e.mode = [] ∨ e.trailing = true ∧ e.names.getLast? = some e.mode

instance (e : Entry) : Decidable e.Terminated := by unfold Terminated; infer_instance

/-- The name ends in its field, or there is no mode behind it. -/
def cut (e : Entry) : Bool := e.raw.length < modeField ∨ e.mode = []

/-- The components that the kernel sees. -/
def effective (e : Entry) : List (List UInt8) :=
  if e.cut then e.names
  else if e.trailing then e.names ++ [e.mode]
  else e.names.dropLast ++ [e.names.getLast?.getD [] ++ e.mode]

section

variable {e : Entry}

theorem Valid.names_ne (h : e.Valid) : e.names ≠ [] := by
  unfold names
  rw [ne_eq, map_eq_nil_iff]
  exact h.comps_ne

theorem Valid.good_names (h : e.Valid) : ∀ c ∈ e.names, GoodComp c := by
  intro c hc
  obtain ⟨s, hs, rfl⟩ := mem_map.mp hc
  obtain ⟨hne, -, hslash, hdot⟩ := h.good s hs
  exact ⟨hne, s.no_nul, fun a ha e => hslash (e ▸ ha), hdot⟩

theorem Valid.names_eq (h : e.Valid) :
    ∃ last, e.names = e.names.dropLast ++ [last] ∧ e.names.getLast? = some last ∧ last.length ≤ 63 := by
  refine ⟨_, (dropLast_concat_getLast h.names_ne).symm, getLast?_eq_some_getLast h.names_ne, ?_⟩
  obtain ⟨s, hs, hchars⟩ := mem_map.mp (getLast_mem h.names_ne)
  rw [← hchars]
  exact (h.good s hs).2.1

theorem Valid.of_not_cut (h : e.Valid) (hcut : e.cut = false) :
    e.raw.length = modeField ∧ e.mode ≠ [] := by
  have hcut' : ¬ (e.raw.length < modeField ∨ e.mode = []) := of_decide_eq_false hcut
  rw [not_or] at hcut'
  exact ⟨Nat.le_antisymm h.filename.1 (Nat.le_of_not_lt hcut'.1), hcut'.2⟩

theorem Valid.good_mode (h : e.Valid) (hcut : e.cut = false) : GoodComp e.mode := by
  obtain ⟨hlen, hne⟩ := h.of_not_cut hcut
  obtain ⟨hmode, -⟩ := h.filemode hlen
  have hchar : ∀ c ∈ e.mode, c ≠ 0 ∧ c ≠ slash ∧ c ≠ dot := by
    intro c hc
    rcases hmode c hc with hd | rfl
    · obtain ⟨h0, h1, h2, -⟩ := octal_digit hd
      exact ⟨h0, h1, h2⟩
    · decide
  exact ⟨hne, fun c hc => (hchar c hc).1, fun c hc => (hchar c hc).2.1,
    fun hlast => (hchar dot (mem_of_getLast? hlast)).2.2 rfl⟩

theorem Valid.good_effective (h : e.Valid) : ∀ c ∈ e.effective, GoodComp c := by
  have hnames := h.good_names
  unfold effective
  cases hcut : e.cut with
  | true => exact hnames
  | false =>
    have hmode := h.good_mode hcut
    rw [if_neg (by decide)]
    split_ifs with htrail
    · intro c hc
      rcases mem_append.mp hc with hc | hc
      · exact hnames c hc
      · rw [mem_singleton.mp hc]
        exact hmode
    · obtain ⟨last, heq, hlast, -⟩ := h.names_eq
      have hgood := hnames last (mem_of_getLast? hlast)
      rw [hlast, Option.getD_some]
      intro c hc
      rcases mem_append.mp hc with hc | hc
      · exact hnames c (dropLast_subset _ hc)
      · rw [mem_singleton.mp hc]
        refine ⟨append_ne_nil_of_left_ne_nil hgood.ne_nil _, fun a ha => ?_, fun a ha => ?_, ?_⟩
        · exact (mem_append.mp ha).elim (hgood.no_nul a) (hmode.no_nul a)
        · exact (mem_append.mp ha).elim (hgood.no_slash a) (hmode.no_slash a)
        · rw [getLast?_append_ne_nil hmode.ne_nil]
          exact hmode.no_dot

theorem Valid.effective_ne (h : e.Valid) : e.effective ≠ [] := by
  unfold effective
  split_ifs
  · exact h.names_ne
  · simp
  · simp

theorem Valid.header_full (h : e.Valid) (hlen : e.raw.length = modeField) :
    ∃ rest, e.header = e.raw ++ (e.mode ++ 0 :: rest) ∧ e.mode.length < 8 := by
  obtain ⟨-, pad, hpad⟩ := h.filemode hlen
  have hmode := congrArg List.length hpad
  rw [length_take, length_append, length_cons] at hmode
  refine ⟨pad ++ (e.header.drop modeField).drop 8, ?_, by omega⟩
  have hraw := h.filename.2.1
  rw [hlen] at hraw
  calc e.header = e.header.take modeField ++ e.header.drop modeField := (take_append_drop ..).symm
    _ = e.raw ++ ((e.header.drop modeField).take 8 ++ (e.header.drop modeField).drop 8) := by
      rw [hraw, take_append_drop]
    _ = _ := by rw [hpad, append_assoc, cons_append]

theorem Valid.header_short (h : e.Valid) (hlen : e.raw.length < modeField) :
    ∃ rest, e.header = e.raw ++ 0 :: rest := by
  obtain ⟨-, hraw, hnul⟩ := h.filename
  obtain ⟨hlt, hget⟩ := List.getElem?_eq_some_iff.mp (hnul hlen)
  refine ⟨e.header.drop (e.raw.length + 1), ?_⟩
  calc e.header = e.header.take e.raw.length ++ e.header.drop e.raw.length :=
      (take_append_drop ..).symm
    _ = _ := by rw [hraw, drop_eq_getElem_cons hlt, hget]

theorem Valid.header_eq (h : e.Valid) : ∃ rest,
    e.header = decorated e.dotted (e.cut && e.trailing) e.effective ++ 0 :: rest ∧
      (decorated e.dotted (e.cut && e.trailing) e.effective).length < 108 := by
  cases hcut : e.cut with
  | true =>
    have hle := h.filename.1
    unfold modeField at hle
    rw [Bool.true_and, effective, if_pos hcut]
    rcases (of_decide_eq_true hcut : e.raw.length < modeField ∨ e.mode = []) with hlen | hmode
    · obtain ⟨rest, hrest⟩ := h.header_short hlen
      exact ⟨rest, hrest, Nat.lt_of_le_of_lt hle (by decide)⟩
    · by_cases hlen : e.raw.length < modeField
      · obtain ⟨rest, hrest⟩ := h.header_short hlen
        exact ⟨rest, hrest, Nat.lt_of_le_of_lt hle (by decide)⟩
      · obtain ⟨rest, hrest, -⟩ := h.header_full (Nat.le_antisymm h.filename.1 (Nat.le_of_not_lt hlen))
        rw [hmode, nil_append] at hrest
        exact ⟨rest, hrest, Nat.lt_of_le_of_lt hle (by decide)⟩
  | false =>
    obtain ⟨hlen, -⟩ := h.of_not_cut hcut
    obtain ⟨rest, hrest, hmode⟩ := h.header_full hlen
    have hjoin : joined e.effective = joined e.names ++ (if e.trailing then [slash] else []) ++ e.mode := by
      unfold effective
      rw [hcut, if_neg (by decide)]
      cases e.trailing with
      | true =>
        rw [if_pos rfl, if_pos rfl, joined_concat h.names_ne, append_assoc, singleton_append]
      | false =>
        obtain ⟨last, heq, hlast, -⟩ := h.names_eq
        rw [if_neg (by decide), if_neg (by decide), hlast, Option.getD_some, joined_append_last, ← heq,
          List.append_nil]
    have heff : decorated e.dotted false e.effective = e.raw ++ e.mode := by
      unfold raw decorated
      rw [hjoin, if_neg (by decide : ¬ false = true), List.append_nil]
      simp only [append_assoc]
    rw [Bool.false_and, heff]
    refine ⟨rest, by rw [hrest, append_assoc], ?_⟩
    unfold modeField at hlen
    rw [length_append]
    omega

theorem Valid.joined_lt (h : e.Valid) : (joined e.effective).length < 108 := by
  obtain ⟨-, -, hlen⟩ := h.header_eq
  unfold decorated at hlen
  rw [length_append, length_append] at hlen
  omega

theorem Valid.terminated_iff (h : e.Valid) :
    e.Terminated ↔ e.effective.getLast? = e.names.getLast? := by
  unfold effective Terminated
  cases hcut : e.cut with
  | true =>
    have hcut' : e.raw.length < modeField ∨ e.mode = [] := of_decide_eq_true hcut
    rw [if_pos rfl, ← or_assoc]
    exact iff_of_true (Or.inl hcut') rfl
  | false =>
    obtain ⟨hlen, hmode⟩ := h.of_not_cut hcut
    have hlong : ¬ e.raw.length < modeField := by omega
    rw [if_neg (by decide), or_iff_right hlong, or_iff_right hmode]
    cases e.trailing with
    | true =>
      rw [if_pos rfl, getLast?_concat]
      exact ⟨fun h => h.2.symm, fun h => ⟨rfl, h.symm⟩⟩
    | false =>
      obtain ⟨last, -, hlast, -⟩ := h.names_eq
      rw [if_neg (by decide), getLast?_concat, hlast, Option.getD_some]
      refine iff_of_false (fun h => by cases h.1) fun h => hmode ?_
      exact append_right_eq_self.mp (Option.some.inj h)

theorem Valid.effective_eq (h : e.Valid) (hterm : e.Terminated) {last : List UInt8}
    (hlast : e.names.getLast? = some last) : ∃ bs, e.effective = e.names.dropLast ++ last :: bs := by
  obtain ⟨last', heq, hlast', -⟩ := h.names_eq
  obtain rfl := Option.some.inj (hlast.symm.trans hlast')
  unfold effective
  cases hcut : e.cut with
  | true => exact ⟨[], by rw [if_pos rfl]; exact heq⟩
  | false =>
    obtain ⟨hlen, hmode⟩ := h.of_not_cut hcut
    have hlong : ¬ e.raw.length < modeField := by omega
    obtain ⟨htrail, -⟩ := (hterm.resolve_left hlong).resolve_left hmode
    refine ⟨[e.mode], ?_⟩
    rw [if_neg (by decide), if_pos htrail]
    conv_lhs => rw [heq, append_assoc]
    rfl

end

end Entry

/-! ## One entry -/

theorem baseName_joined {cs : List (List UInt8)} {last : List UInt8} (h : ∀ c ∈ cs, GoodComp c)
    (hlast : cs.getLast? = some last) {filename : CStr} (hname : filename.chars = joined cs) :
    (baseName filename).chars = last := by
  obtain ⟨init, rfl⟩ := getLast?_eq_some_iff.mp hlast
  have hslash : slash ∉ last := fun hmem =>
    (h last (mem_append_right _ mem_cons_self)).no_slash slash hmem rfl
  unfold baseName
  by_cases hinit : init = []
  · rw [hinit, nil_append, joined_singleton] at hname
    have hchr : strrchr filename slash = none := by
      unfold strrchr
      rw [hname]
      exact strrchrLoop_of_not_mem hslash 0 none
    rw [hchr, hname]
  · rw [joined_concat hinit] at hname
    rw [strrchr_append hname hslash]
    show filename.chars.drop _ = last
    rw [hname, ← drop_drop, drop_left]
    rfl

section

variable {e : Entry} {mem more : List UInt8} {hdr : ℕ}

theorem Entry.Valid.field (h : e.Valid) (hdrop : mem.drop hdr = e.header ++ more) {mem₁ : List UInt8}
    (hframe : ∀ q, hdr + 108 ≤ q → mem₁.drop q = mem.drop q) {k : ℕ} (hk : 108 ≤ k) (hk' : k ≤ 512) :
    mem₁.drop (hdr + k) = e.header.drop k ++ more := by
  rw [hframe _ (by omega), ← drop_drop, hdrop, drop_append_of_le_length]
  rw [h.header_length]
  exact hk'

theorem Entry.Valid.readField (h : e.Valid) {mem₁ : List UInt8}
    (hfield : mem₁.drop (hdr + sizeField) = e.header.drop sizeField ++ more) :
    ustarReadField 12 0 (mem₁.drop (hdr + sizeField)) = some (UInt64.ofNat e.size) := by
  obtain ⟨digits, pad, htake, hdigits, hpad, hsize⟩ := h.filesize
  have hlen := congrArg List.length htake
  rw [length_take, length_drop, h.header_length, length_append] at hlen
  unfold sizeField at hlen
  have hdrop : mem₁.drop (hdr + sizeField) =
      digits ++ (pad ++ ((e.header.drop sizeField).drop 12 ++ more)) := by
    rw [hfield, ← append_assoc digits, ← htake, ← append_assoc, take_append_drop]
  rw [hdrop]
  refine (ustarReadField_digits hdigits ?_ 0).trans (by rw [← hsize]; rfl)
  rcases hpad with rfl | hpad
  · exact Or.inl (by rw [length_nil] at hlen; omega)
  · cases pad with
    | nil => cases hpad
    | cons a pad => exact Or.inr ⟨by rw [length_cons] at hlen; omega, hpad⟩

theorem processEntry_valid (h : e.Valid) (hdrop : mem.drop hdr = e.header ++ more) (address : ℕ)
    (t : Ramdisk) : ∃ mem₁ rest name, mem₁.length = mem.length ∧
      mem₁.drop hdr = joined e.effective ++ 0 :: rest ∧
      (∀ q, hdr + 108 ≤ q → mem₁.drop q = mem.drop q) ∧ e.effective.getLast? = some name.chars ∧
      processEntry address mem t hdr = if name.chars.length < 64 then
        (walkLoop (mem₁.length + 1) mem₁ t.nodes rootNode hdr).bind fun r =>
          (r.2.1.node r.2.2).map fun parent => (r.1, attach t r.2.1 r.2.2 parent ⟨name, e.type, []⟩
            (UInt64.ofNat e.size) (address + hdr + 512))
        else none := by
  obtain ⟨rest, hheader, hlen⟩ := h.header_eq
  have hgood := h.good_effective
  rw [hheader, append_assoc, cons_append] at hdrop
  obtain ⟨mem₁, rest₁, hnorm, hlen₁, hdrop₁, hframe⟩ :=
    pathNormalize_decorated hgood h.effective_ne e.dotted (e.cut && e.trailing) hdrop
  rw [← cons_append, ← append_assoc, ← hheader] at hdrop
  have hframe' : ∀ q, hdr + 108 ≤ q → mem₁.drop q = mem.drop q := fun q hq => hframe q (by omega)
  obtain ⟨filename, hstr, hchars⟩ := memStr_of_drop (joined_no_nul hgood) hdrop₁
  have hlast := getLast?_eq_some_getLast h.effective_ne
  refine ⟨mem₁, rest₁, baseName filename, hlen₁, hdrop₁, hframe', ?_, ?_⟩
  · rw [baseName_joined hgood hlast hchars, hlast]
  · obtain ⟨c, hflag, hget⟩ := h.typeflag
    have htype : mem₁[hdr + typeField]? = some c := by
      rw [← head?_drop, h.field hdrop hframe' (by decide) (by decide), head?_append, head?_drop, hget]
      rfl
    have hsize := h.readField (h.field hdrop hframe' (by decide) (by decide))
    unfold processEntry
    rw [hnorm]
    simp only [Option.bind_eq_bind, Option.bind_some, hstr, htype, vnodeType_typeFlag hflag, hsize]
    by_cases hfits : (baseName filename).chars.length < 64
    · simp only [guard, if_pos hfits, pure, Option.bind_some, Option.map_eq_bind, Function.comp_def]
    · simp only [guard, if_neg hfits]
      rfl

end

end LykOS.Initrd
