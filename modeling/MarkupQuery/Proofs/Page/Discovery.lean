import MarkupQuery.Proofs.Page.FragmentPrefixes

namespace MarkupQuery.PrefixTable

open MarkupQuery.Tree MarkupQuery.Tree.Document

variable {table : PrefixTable} {declared : List Declaration} {q p u v : String}

section Bind

variable {entries : List (String × String)}

theorem bind_bind_self (q v u : String) (entries : List (String × String)) :
    bind q u (bind q v entries) = bind q u entries := by
  induction entries with
  | nil => simp [bind]
  | cons entry rest ih =>
    obtain ⟨known, w⟩ := entry
    by_cases hq : known = q
    · simp [bind, hq]
    · simp [bind, hq, ih]

/-- Two prefixes can be bound in either order if one of them has its place already. -/
theorem bind_comm (hne : q ≠ p) (hp : (entries.lookup p).isSome) (u v : String) :
    bind p v (bind q u entries) = bind q u (bind p v entries) := by
  induction entries with
  | nil => cases hp
  | cons entry rest ih =>
    obtain ⟨known, w⟩ := entry
    by_cases hknown : known = p
    · subst hknown
      simp [bind, hne.symm]
    · rw [lookup_cons_pair, if_neg hknown] at hp
      by_cases hq : known = q
      · subst hq
        simp [bind, hknown]
      · simp [bind, hknown, hq, ih hp]

end Bind

section Register

theorem register_register_self (table : PrefixTable) (q v u : String) :
    (table.register q v).register q u = table.register q u :=
  congrArg (PrefixTable.mk · table.defaultNamespace) (bind_bind_self q v u table.entries)

theorem register_comm (hne : q ≠ p) (hp : table.contains p = true) (u v : String) :
    (table.register q u).register p v = (table.register p v).register q u :=
  congrArg (PrefixTable.mk · table.defaultNamespace) (bind_comm hne hp u v)

theorem contains_register (table : PrefixTable) (q u p : String) :
    (table.register q u).contains p = (q == p || table.contains p) := by
  rw [contains, uri?_register]
  by_cases hq : q = p
  · simp [hq]
  · simp [hq, contains]

theorem registerDeclared_some (table : PrefixTable) (q u : String) :
    table.registerDeclared ⟨some q, u⟩ = table.register q u := rfl

def Covers (table : PrefixTable) (declared : List Declaration) : Prop :=
  ∀ d ∈ declared, ∀ p ∈ d.qualifier, table.contains p = true

theorem Covers.register (h : table.Covers declared) (q u : String) :
    (table.register q u).Covers declared := fun d hd p hp => by
  rw [contains_register, h d hd p hp, Bool.or_true]

theorem covers_foldl (table : PrefixTable) (declared : List Declaration) :
    (declared.foldl registerDeclared table).Covers declared := by
  intro d hd p hp
  obtain ⟨qualifier, u⟩ := d
  obtain rfl := Option.mem_def.mp hp
  have hlast : (lastUri? declared p).isSome := by
    rw [Option.isSome_iff_ne_none, Ne, lastUri?_eq_none]
    exact fun hnone => hnone u hd
  rw [contains, uri?_foldl_registerDeclared]
  obtain ⟨v, hv⟩ := Option.isSome_iff_exists.mp hlast
  simp [hv]

/-- A prefix that is bound behind declarations which have their places need not be bound before
them. -/
theorem foldl_register_register (h : table.Covers declared) (q u : String) :
    (declared.foldl registerDeclared (table.register q u)).register q u =
      (declared.foldl registerDeclared table).register q u := by
  induction declared generalizing table u with
  | nil => exact register_register_self table q u u
  | cons d declared ih =>
    obtain ⟨hd, hrest⟩ := List.forall_mem_cons.mp h
    rw [List.foldl_cons, List.foldl_cons]
    obtain ⟨qualifier, v⟩ := d
    cases qualifier with
    | none => exact ih hrest u
    | some p =>
      rw [registerDeclared_some, registerDeclared_some]
      by_cases hq : q = p
      · rw [hq, register_register_self]
      · rw [register_comm hq (hd p rfl) u v]
        exact ih (Covers.register hrest p v) u

/-- A prefix that is not declared can be bound before declarations that have their places. -/
theorem foldl_register_comm (h : table.Covers declared) (hq : ∀ v, ⟨some q, v⟩ ∉ declared)
    (u : String) : declared.foldl registerDeclared (table.register q u) =
      (declared.foldl registerDeclared table).register q u := by
  induction declared generalizing table with
  | nil => rfl
  | cons d declared ih =>
    obtain ⟨hd, hrest⟩ := List.forall_mem_cons.mp h
    have hnot : ∀ v, ⟨some q, v⟩ ∉ declared := fun v hv => hq v (List.mem_cons_of_mem d hv)
    rw [List.foldl_cons, List.foldl_cons]
    obtain ⟨qualifier, v⟩ := d
    cases qualifier with
    | none => exact ih hrest hnot
    | some p =>
      have hne : q ≠ p := fun hsame => hq v (hsame ▸ List.mem_cons_self)
      rw [registerDeclared_some, registerDeclared_some, register_comm hne (hd p rfl) u v]
      exact ih (Covers.register hrest p v) hnot

/-- To register the same declarations again changes nothing, also if they bind a prefix twice. -/
theorem foldl_registerDeclared_twice (table : PrefixTable) (declared : List Declaration) :
    declared.foldl registerDeclared (declared.foldl registerDeclared table) =
      declared.foldl registerDeclared table := by
  induction declared using List.reverseRecOn with
  | nil => rfl
  | append_singleton declared d ih =>
    obtain ⟨qualifier, u⟩ := d
    rw [List.foldl_concat, List.foldl_concat]
    cases qualifier with
    | none => exact ih
    | some q =>
      rw [registerDeclared_some, registerDeclared_some,
        foldl_register_register (covers_foldl table declared), ih]

/-- The default namespace of a table does not count when prefixes are registered. -/
theorem foldl_registerDeclared_setDefault (table : PrefixTable) (declared : List Declaration)
    (default : Option String) :
    declared.foldl registerDeclared (table.setDefault default) =
      (declared.foldl registerDeclared table).setDefault default := by
  induction declared generalizing table with
  | nil => rfl
  | cons d declared ih =>
    obtain ⟨qualifier, u⟩ := d
    cases qualifier with
    | none => exact ih table
    | some q => exact ih (table.register q u)

theorem defaultNamespace_foldl (table : PrefixTable) (declared : List Declaration) :
    (declared.foldl registerDeclared table).defaultNamespace = table.defaultNamespace := by
  have h := congrArg PrefixTable.defaultNamespace
    (foldl_registerDeclared_setDefault table declared table.defaultNamespace)
  exact h

theorem registerDefault_eq (h : table.defaultNamespace = some u) (mode : Discovery) (name : String) :
    table.registerDefault mode name u =
      match mode with
      | .defaultAs q => table.register q u
      | _ => if table.contains name then table else table.register name u := by
  obtain ⟨entries, default⟩ := table
  obtain rfl : default = some u := h
  cases mode <;> rfl

/-- A prefix for the default namespace stays as it is when everything is registered again. -/
theorem registerDefault_twice (h : table.defaultNamespace = some u)
    (hfound : declared.foldl registerDeclared table = table) (hcovers : table.Covers declared)
    (mode : Discovery) (name : String) :
    (declared.foldl registerDeclared (table.registerDefault mode name u)).registerDefault mode name u =
      table.registerDefault mode name u := by
  have hkept : ∀ q, (declared.foldl registerDeclared (table.register q u)).defaultNamespace =
      some u := fun q => (defaultNamespace_foldl _ _).trans h
  rw [registerDefault_eq h]
  cases mode with
  | defaultAs q =>
    rw [registerDefault_eq (hkept q)]
    dsimp only
    rw [foldl_register_register hcovers, hfound]
  | off | auxiliary =>
    dsimp only
    split
    · rename_i htaken
      rw [hfound, registerDefault_eq h]
      exact if_pos htaken
    · rename_i hfree
      -- the name is not declared as a prefix, and the second time it is taken
      have hnot : ∀ v, ⟨some name, v⟩ ∉ declared := fun v hv => hfree (hcovers _ hv name rfl)
      rw [registerDefault_eq (hkept name), foldl_register_comm hcovers hnot, hfound]
      exact if_pos (by rw [contains_register, beq_self_eq_true, Bool.true_or])

end Register

section Discover

variable {doc : Document} {mode : Discovery} {top : NodeId}

def discoveredDefault? (doc : Document) (id : NodeId) : Option Declaration :=
  (discoverable doc id).find? fun d => d.qualifier.isNone

theorem discover_eq (htop : doc.rootElement? = some top) (hmode : mode ≠ .off)
    (table : PrefixTable) :
    table.discover mode doc =
      match discoveredDefault? doc top with
      | some d => ((discoverable doc top).foldl registerDeclared table).registerDefault mode
          ((doc.localName? top).getD "") d.uri
      | none => (discoverable doc top).foldl registerDeclared table := by
  unfold discover
  rw [htop]
  cases mode with
  | off => exact absurd rfl hmode
  | auxiliary | defaultAs => rfl

theorem discover_of_none (htop : doc.rootElement? = none) (mode : Discovery) (table : PrefixTable) :
    table.discover mode doc = table := by
  unfold discover
  rw [htop]
  cases mode <;> rfl

/-- To discover namespaces again changes nothing. -/
theorem discover_discover (table : PrefixTable) (mode : Discovery) (doc : Document) :
    (table.discover mode doc).discover mode doc = table.discover mode doc := by
  by_cases hmode : mode = .off
  · subst hmode
    rfl
  cases htop : doc.rootElement? with
  | none => rw [discover_of_none htop, discover_of_none htop]
  | some top =>
    rw [discover_eq htop hmode, discover_eq htop hmode]
    cases discoveredDefault? doc top with
    | none => exact foldl_registerDeclared_twice table _
    | some d =>
      have hcovers := covers_foldl (table.setDefault (some d.uri)) (discoverable doc top)
      have hfound := foldl_registerDeclared_twice (table.setDefault (some d.uri))
        (discoverable doc top)
      rw [foldl_registerDeclared_setDefault] at hcovers hfound
      exact registerDefault_twice rfl hfound hcovers mode _

section Order

variable {other : Document} {top' : NodeId} {ds ds' : List Declaration}

/-- In a list without repeated prefixes the order does not matter when one is looked up. -/
theorem find_eq_of_perm (hperm : ds.Perm ds') (hnodup : (ds.map Declaration.qualifier).Nodup)
    (qualifier : Option String) : ds.find? (fun d => d.qualifier == qualifier) =
      ds'.find? fun d => d.qualifier == qualifier := by
  have hdistinct : ∀ a ∈ ds, ∀ b ∈ ds, a.qualifier = b.qualifier → a = b :=
    fun a ha b hb => List.inj_on_of_nodup_map hnodup ha hb
  cases hfound : ds.find? fun d => d.qualifier == qualifier with
  | none =>
    refine (List.find?_eq_none.mpr fun d hd => ?_).symm
    exact List.find?_eq_none.mp hfound d (hperm.mem_iff.mpr hd)
  | some d =>
    cases hfound' : ds'.find? fun d => d.qualifier == qualifier with
    | none =>
      have hd := hperm.mem_iff.mp (List.mem_of_find?_eq_some hfound)
      exact absurd (List.find?_some hfound) (List.find?_eq_none.mp hfound' d hd)
    | some d' =>
      have hd' := hperm.mem_iff.mpr (List.mem_of_find?_eq_some hfound')
      have hq : d.qualifier = qualifier := by simpa using List.find?_some hfound
      have hq' : d'.qualifier = qualifier := by simpa using List.find?_some hfound'
      rw [hdistinct d (List.mem_of_find?_eq_some hfound) d' hd' (hq.trans hq'.symm)]

theorem lastUri?_eq_of_perm (hperm : ds.Perm ds') (hnodup : (ds.map Declaration.qualifier).Nodup)
    (p : String) : lastUri? ds p = lastUri? ds' p := by
  have hreversed : (ds.reverse.map Declaration.qualifier).Nodup := by
    rw [List.map_reverse]
    exact List.nodup_reverse.mpr hnodup
  have hperm' : ds.reverse.Perm ds'.reverse :=
    (List.reverse_perm ds).trans (hperm.trans (List.reverse_perm ds').symm)
  rw [lastUri?, find_eq_of_perm hperm' hreversed]
  rfl

/-- Two tables that answer alike, whatever the order of their entries is. -/
structure SaysSame (table table' : PrefixTable) : Prop where
  default : table.defaultNamespace = table'.defaultNamespace
  uri : ∀ p, table.uri? p = table'.uri? p

namespace SaysSame

variable {table' : PrefixTable}

theorem register (h : SaysSame table table') (q u : String) :
    SaysSame (table.register q u) (table'.register q u) where
  default := h.default
  uri p := by rw [uri?_register, uri?_register, h.uri]

theorem registerDefault (h : SaysSame table table') (mode : Discovery) (name u : String) :
    SaysSame (table.registerDefault mode name u) (table'.registerDefault mode name u) := by
  have hset : SaysSame (table.setDefault (some u)) (table'.setDefault (some u)) := ⟨rfl, h.uri⟩
  change SaysSame ((table.setDefault (some u)).registerDefault mode name u)
    ((table'.setDefault (some u)).registerDefault mode name u)
  rw [registerDefault_eq rfl, registerDefault_eq rfl]
  cases mode with
  | defaultAs q => exact hset.register q u
  | off | auxiliary =>
    have hcontains : (table.setDefault (some u)).contains name =
        (table'.setDefault (some u)).contains name := congrArg Option.isSome (h.uri name)
    dsimp only
    rw [hcontains]
    split
    · exact hset
    · exact hset.register name u

end SaysSame

/-- What is discovered on two root elements of one name that declare the same. -/
theorem saysSame_discover (htop : doc.rootElement? = some top) (htop' : other.rootElement? = some top')
    (hname : doc.localName? top = other.localName? top')
    (hperm : (doc.declarations top).Perm (other.declarations top'))
    (hnodup : ((doc.declarations top).map Declaration.qualifier).Nodup)
    (table : PrefixTable) (mode : Discovery) :
    SaysSame (table.discover mode doc) (table.discover mode other) := by
  have hperm' : (discoverable doc top).Perm (discoverable other top') := hperm.filter _
  have hnodup' : ((discoverable doc top).map Declaration.qualifier).Nodup :=
    hnodup.sublist (List.filter_sublist.map _)
  by_cases hmode : mode = .off
  · subst hmode
    exact ⟨rfl, fun _ => rfl⟩
  have hdefault : discoveredDefault? doc top = discoveredDefault? other top' := by
    have hnone : (fun d : Declaration => d.qualifier.isNone) = fun d => d.qualifier == none := by
      funext d
      cases d.qualifier <;> rfl
    rw [discoveredDefault?, discoveredDefault?, hnone, find_eq_of_perm hperm' hnodup']
  have hfound : SaysSame ((discoverable doc top).foldl registerDeclared table)
      ((discoverable other top').foldl registerDeclared table) := by
    refine ⟨by rw [defaultNamespace_foldl, defaultNamespace_foldl], fun p => ?_⟩
    rw [uri?_foldl_registerDeclared, uri?_foldl_registerDeclared, lastUri?_eq_of_perm hperm' hnodup']
  rw [discover_eq htop hmode, discover_eq htop' hmode, hname, hdefault]
  split
  · exact hfound.registerDefault mode _ _
  · exact hfound

end Order

/-- Discovery is idempotent and independent of the order of declarations. From any table and in any
mode, to discover the namespaces of a document twice gives the table that it gives once, entry by
entry. And where the root elements of two documents have one local name and the same declarations in
any two orders, no prefix being declared twice, the tables that they give have the same default
namespace and bind every prefix alike. -/
theorem discover_stable (table : PrefixTable) (mode : Discovery) :
    (∀ doc, (table.discover mode doc).discover mode doc = table.discover mode doc) ∧
    ∀ (doc other : Document) (top top' : NodeId), doc.rootElement? = some top →
      other.rootElement? = some top' → doc.localName? top = other.localName? top' →
      (doc.declarations top).Perm (other.declarations top') →
      ((doc.declarations top).map Declaration.qualifier).Nodup →
      (table.discover mode doc).defaultNamespace = (table.discover mode other).defaultNamespace ∧
        ∀ p, (table.discover mode doc).uri? p = (table.discover mode other).uri? p := by
  refine ⟨discover_discover table mode, fun doc other top top' htop htop' hname hperm hnodup => ?_⟩
  have hsame := saysSame_discover htop htop' hname hperm hnodup table mode
  exact ⟨hsame.default, hsame.uri⟩

end Discover

def takenName : Document := (Page.ofMarkup "<x xmlns='d' xmlns:x='u' xmlns:y='v'/>").document

def takenNameReordered : Document :=
  (Page.ofMarkup "<x xmlns:y='v' xmlns='d' xmlns:x='u'/>").document

def tableWithPrefix : PrefixTable := { entries := [("y", "w")] }

/-- Both give tables that say the same, and the default namespace does not get the name. -/
theorem discover_stable_takenName :
    takenName.rootElement? = some 1 ∧ takenNameReordered.rootElement? = some 1 ∧
    takenName.localName? 1 = takenNameReordered.localName? 1 ∧
    (takenName.declarations 1).Perm (takenNameReordered.declarations 1) ∧
    ((takenName.declarations 1).map Declaration.qualifier).Nodup ∧
    (tableWithPrefix.discover .auxiliary takenName).uri? "x" = some "u" ∧
    (tableWithPrefix.discover .auxiliary takenName).defaultNamespace =
      (tableWithPrefix.discover .auxiliary takenNameReordered).defaultNamespace ∧
    ∀ p, (tableWithPrefix.discover .auxiliary takenName).uri? p =
      (tableWithPrefix.discover .auxiliary takenNameReordered).uri? p := by
  have hvalues : takenName.rootElement? = some 1 ∧ takenNameReordered.rootElement? = some 1 ∧
      takenName.localName? 1 = takenNameReordered.localName? 1 ∧
      (takenName.declarations 1).isPerm (takenNameReordered.declarations 1) = true ∧
      ((takenName.declarations 1).map Declaration.qualifier).Nodup ∧
      (tableWithPrefix.discover .auxiliary takenName).uri? "x" = some "u" := by decide +kernel
  obtain ⟨htop, htop', hname, hperm, hnodup, huri⟩ := hvalues
  have hperm := List.isPerm_iff.mp hperm
  exact ⟨htop, htop', hname, hperm, hnodup, huri,
    (discover_stable tableWithPrefix .auxiliary).2 _ _ _ _ htop htop' hname hperm hnodup⟩

end MarkupQuery.PrefixTable
