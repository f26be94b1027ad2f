import Foam.Proofs.Arena.Free
import Foam.Proofs.Roles

/-!
# The symbols of a unit

The first format of a unit declares the globals, the others are what a user sees. Their symbols are
listed format by format and in each declaration by declaration. The list starts behind the first
format that is present: it has all the symbols from index one on if there are globals
(`unitSymbols_behind_first`), and lacks those of one format else.
-/

namespace Foam

namespace Arena

/-- The symbol of the node in a slot, if there is a node and it has one. -/
def slotSymbol? (a : Arena) (s : Slot) : Option UInt32 :=
  s.code?.bind fun c => (a.get? c).bind Node.symbol

/-- The symbols that a group declares, in the order of the declarations. -/
def declaredSymbols (a : Arena) (group : NodeId) : List UInt32 :=
  (a.get? group).elim [] fun g => (g.slots.drop 1).filterMap a.slotSymbol?

/-- A group of declarations that are live or absent. -/
def DeclaresLive (a : Arena) (group : NodeId) : Prop :=
  ∃ g ∈ a.get? group, g.tag = .ddecl ∧ ∀ d ∈ g.children, a.contains d = true

instance (a : Arena) (group : NodeId) : Decidable (a.DeclaresLive group) :=
  inferInstanceAs (Decidable (∃ g ∈ a.get? group, g.tag = .ddecl ∧
    ∀ d ∈ g.children, a.contains d = true))

variable {a : Arena}

theorem groupSymbols_eq (hw : a.WellFormed) {group : NodeId} (h : a.DeclaresLive group) :
    a.groupSymbols group = .ok (a.declaredSymbols group) := by
  obtain ⟨g, hg, htag, hlive⟩ := h
  have husage : 1 ≤ g.slots.length := (hw.fixed_slot (i := 0) hg (by rw [htag]; rfl)).1
  have hsymbol : ∀ d ∈ (g.slots.drop 1).filterMap Slot.code?,
      (if d.isNull then return none else return (← a.node d).symbol : Checked (Option UInt32)) =
        .ok ((a.get? d).bind Node.symbol) := by
    intro d hd
    cases hnull : d.isNull with
    | true =>
        obtain rfl : d = .null := beq_iff_eq.mp hnull
        rw [hw.get?_null]
        rfl
    | false =>
        obtain ⟨s, hs, hsd⟩ := List.mem_filterMap.mp hd
        obtain rfl : s = .code d := Slot.code?_eq_some.mp hsd
        have hmem : d ∈ g.children := Node.mem_children.mpr ⟨List.mem_of_mem_drop hs, hnull⟩
        obtain ⟨m, hm⟩ := hw.contains_iff.mp (hlive d hmem)
        rw [node_of_get? hm, hm]
        rfl
  rw [groupSymbols, groupDecls, childrenFrom_of_get? hg husage, Checked.ok_bind,
    Checked.filterMapM_eq_ok hsymbol, List.filterMap_filterMap, declaredSymbols, Option.mem_def.mp hg]
  rfl

/-- The symbols are those of all formats that are present but the first. -/
theorem unitSymbols_eq (hw : a.WellFormed) {unit formats : NodeId} {n : Node}
    (hformats : a.unitFormats unit = .ok formats) (hn : a.get? formats = some n)
    (hgroups : ∀ group ∈ n.children, a.DeclaresLive group) :
    a.unitSymbols unit = .ok ((n.children.drop 1).flatMap a.declaredSymbols) := by
  have hsymbols : ∀ group ∈ n.children.drop 1,
      a.groupSymbols group = .ok (a.declaredSymbols group) :=
    fun group h => groupSymbols_eq hw (hgroups group (List.mem_of_mem_drop h))
  rw [unitSymbols, hformats, Checked.ok_bind, children_of_get? hn, Checked.ok_bind,
    Checked.mapM_eq_ok hsymbols, Checked.ok_bind, List.flatMap_def]
  rfl

/-- If the first entry of the format table is present, the symbols of a unit are those that are
declared by the entries at the indices from one on. If it is absent, they lack the symbols of the
first one of these that is present. -/
theorem unitSymbols_behind_first (hw : a.WellFormed) {unit formats : NodeId} {n : Node}
    (hformats : a.unitFormats unit = .ok formats) (hn : a.get? formats = some n)
    (htag : n.tag = .dfmt) (hgroups : ∀ group ∈ n.children, a.DeclaresLive group) :
    let declared := ((n.slots.drop 1).filterMap Slot.child?).flatMap a.declaredSymbols
    ∃ symbols, a.unitSymbols unit = .ok symbols ∧
      (n.slots[0]? ≠ some (.code .null) → symbols = declared) ∧
      (n.slots[0]? = some (.code .null) →
        declared = n.children.head?.elim [] a.declaredSymbols ++ symbols) := by
  refine ⟨_, unitSymbols_eq hw hformats hn hgroups, fun hpresent => ?_, fun habsent => ?_⟩
  · cases hslots : n.slots with
    | nil => rw [Node.children, hslots]; rfl
    | cons s ss =>
        obtain ⟨c, hc⟩ := hw.code_at (i := 0) hn (by rw [hslots]; exact Nat.succ_pos _)
          (by rw [htag]; rfl)
        have hchild : s.child? = some c := by
          rw [hslots] at hc hpresent
          refine Slot.mem_child?.mpr ⟨Option.some.inj hc, beq_false_of_ne ?_⟩
          rintro rfl
          exact hpresent hc
        rw [Node.children, hslots, List.filterMap_cons_some hchild]
        rfl
  · cases hslots : n.slots with
    | nil =>
        rw [hslots] at habsent
        cases habsent
    | cons s ss =>
        rw [hslots] at habsent
        obtain rfl : s = .code .null := Option.some.inj habsent
        rw [Node.children, hslots, List.filterMap_cons_none (by rfl)]
        show (ss.filterMap Slot.child?).flatMap a.declaredSymbols = _
        cases ss.filterMap Slot.child? with
        | nil => rfl
        | cons c cs => exact List.flatMap_cons

/-- The globals come first and are left out. A format and a declaration that are absent are passed
over, and so is a declaration without a symbol. -/
theorem unitSymbols_behind_first_of_globals :
    let decl (symbol : Option UInt32) : Node :=
      ⟨.decl, [.int 5, .str "x", .int 0, .int 4], .unknown, symbol, none⟩
    let table : Node := .bare .dfmt [.code ⟨2⟩, .code .null, .code ⟨4⟩]
    let a : Arena := .ofRows [some (.bare .unit [.code ⟨1⟩, .code .null]), some table,
      some (.bare .ddecl [.int 10, .code ⟨3⟩]), some (decl (some 1)),
      some (.bare .ddecl [.int 0, .code ⟨5⟩, .code .null, .code ⟨6⟩, .code ⟨7⟩]),
      some (decl (some 9)), some (decl none), some (decl (some 7))] []
    let declared := ((table.slots.drop 1).filterMap Slot.child?).flatMap a.declaredSymbols
    a.WellFormed ∧ a.unitFormats ⟨0⟩ = .ok ⟨1⟩ ∧ a.get? ⟨1⟩ = some table ∧ table.tag = .dfmt ∧
      (∀ group ∈ table.children, a.DeclaresLive group) ∧ declared = [9, 7] ∧
      ∃ symbols, a.unitSymbols ⟨0⟩ = .ok symbols ∧
        (table.slots[0]? ≠ some (.code .null) → symbols = declared) ∧
        (table.slots[0]? = some (.code .null) →
          declared = table.children.head?.elim [] a.declaredSymbols ++ symbols) := by
  intro decl table a declared
  have hw : a.WellFormed := by decide
  have hgroups : ∀ group ∈ table.children, a.DeclaresLive group := by decide
  exact ⟨hw, rfl, rfl, rfl, hgroups, rfl, unitSymbols_behind_first hw rfl rfl rfl hgroups⟩

/-- Without globals, the symbol of a local environment at index one is not listed. -/
theorem not_unitSymbols_from_one :
    ¬∀ (a : Arena) (unit formats : NodeId) (n : Node), a.WellFormed →
      a.unitFormats unit = .ok formats → a.get? formats = some n → n.tag = .dfmt →
      (∀ group ∈ n.children, a.DeclaresLive group) →
      a.unitSymbols unit =
        .ok (((n.slots.drop 1).filterMap Slot.child?).flatMap a.declaredSymbols) := by
  intro h
  let a : Arena := .ofRows [some ⟨.decl, [.int 5, .str "x", .int 0, .int 4], .unknown, some 7, none⟩,
    some (.bare .ddecl [.int 0, .code ⟨0⟩]), some (.bare .dfmt [.code .null, .code ⟨1⟩]),
    some (.bare .ddef []), some (.bare .unit [.code ⟨2⟩, .code ⟨3⟩])] []
  have hsymbols : a.unitSymbols ⟨4⟩ = .ok [] := by rfl
  have hlisted : a.unitSymbols ⟨4⟩ = .ok [7] :=
    h a ⟨4⟩ ⟨2⟩ _ (by decide) rfl rfl rfl (by decide)
  cases hsymbols.symm.trans hlisted

end Arena

end Foam
