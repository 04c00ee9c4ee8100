import ApiGraph.Proofs.Resolve.Inlining

namespace ApiGraph.Resolve

open Store Reference

section Origin

variable (c : Context) (s : Store) (files : List (String × NodeId)) (h : History)

-- The container was parsed along with the document: it was given, or it came with the file.
inductive Home (d id : NodeId) : Prop
  | given (hd : d = c.document) (hid : id < s.nodes.size) : Home d id
  | file {e : History} {key : String} {read : Store} (he : e ++ [.load key d read] <+: h)
      (hold : (after c s e).nodes.size ≤ id)
      (hnew : id < (after c s (e ++ [.load key d read])).nodes.size) : Home d id

-- Down the values that stood in the containers when they were parsed.
inductive WrittenIn (a : NodeId) : NodeId → Prop
  | refl : WrittenIn a a
  | child {b x : NodeId} {e : History} (hb : WrittenIn a b) (he : e <+: h)
      (hbirth : Birth c s e b) (hx : .node x ∈ (after c s e).children b) : WrittenIn a x

-- What came into the content that the walk of a scope goes through.
inductive Foreign (scope : Scope) (x : NodeId) : Prop
  | lent {e : History} {node : NodeId} {key ref : String} (hkey : scope.key = some key)
      (hlent : Lent c s files e scope.document ref x)
      (hf : e ++ [.follow ⟨targetText key ref, node⟩ x false] <+: h) : Foreign scope x
  | brought {b : NodeId} {e : History} {d : Deed} (hb : Within c s files h scope b)
      (he : e ++ [d] <+: h) (hd : d.brings = true) (hnew : .node x ∉ (after c s e).children b)
      (hx : .node x ∈ (after c s (e ++ [d])).children b) : Foreign scope x
  | copied {b target : NodeId} {e : History} {ref : String} {name : Option String}
      (hb : Within c s files h scope b) (he : e ++ [.inline b target ref name] <+: h)
      (hnew : .node x ∉ (after c s e).children b)
      (hx : .node x ∈ (after c s e).children target) : Foreign scope x

-- The container was written below something that came from elsewhere.
def Strays (scope : Scope) (id : NodeId) : Prop :=
  ∃ x, Foreign c s files h scope x ∧ WrittenIn c s h x id

end Origin

section Homes

variable {c : Context} {root : Scope} {s : Store} {files : List (String × NodeId)}
  {h e e' : History} {d : Deed} {scope : Scope} {document id b x : NodeId} {key key' : String}
  {read read' : Store}

theorem Lawful.size_le (hl : Lawful c s files h) (hdoc : (s.mapping? c.document).isSome)
    (he : e <+: h) : (after c s e).nodes.size ≤ (after c s h).nodes.size :=
  (hl.keeps hdoc he).size

-- A container is parsed once.
theorem Lawful.load_inj (hl : Lawful c s files h) (hdoc : (s.mapping? c.document).isSome)
    {document' : NodeId} (he : e ++ [.load key document read] <+: h)
    (he' : e' ++ [.load key' document' read'] <+: h)
    (hold : (after c s e).nodes.size ≤ id)
    (hnew : id < (after c s (e ++ [.load key document read])).nodes.size)
    (hold' : (after c s e').nodes.size ≤ id)
    (hnew' : id < (after c s (e' ++ [.load key' document' read'])).nodes.size) :
    e ++ [.load key document read] = e' ++ [.load key' document' read'] := by
  -- What is there after one load is not new to a later one.
  have later {f f' : History} {d d' : Deed} (hf' : f' ++ [d'] <+: h) (hpre : f ++ [d] <+: f' ++ [d'])
      (hin : id < (after c s (f ++ [d])).nodes.size) (hout : (after c s f').nodes.size ≤ id) :
      f ++ [d] = f' ++ [d'] := by
    rcases List.prefix_concat_iff.mp hpre with heq | hshort
    · exact heq
    · have hle := (hl.of_prefix ((List.prefix_append f' _).trans hf')).size_le hdoc hshort
      exact absurd (Nat.lt_of_lt_of_le hin hle) (Nat.not_lt.mpr hout)
  rcases List.prefix_or_prefix_of_prefix he he' with hpre | hpre
  · exact later he' hpre hnew hold'
  · exact (later he hpre hnew' hold).symm

-- What is written in a container has the same home.
theorem Home.child (hs : s.WellFormed) (hdoc : (s.mapping? c.document).isSome)
    (hl : Lawful c s files h) (hb : Home c s h document b) (he : e <+: h)
    (hbirth : Birth c s e b) (hx : .node x ∈ (after c s e).children b) : Home c s h document x := by
  have hlt := lt_size_of_mem_children hx
  rcases hbirth with rfl | ⟨e', key', d', read', rfl, hnew⟩
  · cases hb with
    | given hd _ => exact .given hd (hs b x hx)
    | file he₀ hold _ =>
        have hle := hl.size_le hdoc ((List.prefix_append _ _).trans he₀)
        have hstart := (hl.of_prefix ((List.prefix_append _ _).trans he₀)).size_le hdoc
          List.nil_prefix
        exact absurd (Nat.lt_of_lt_of_le hlt hstart) (Nat.not_lt.mpr hold)
  · have hlegit := (hl.of_prefix he).last
    cases hlegit with
    | load hkey hread =>
        have hext := (extends_parseFile hread).1
        rw [after_concat] at hx
        obtain ⟨hxold, hxnew⟩ := hext.new b hnew (.node x) hx x rfl
        cases hb with
        | given _ hid =>
            have hstart := (hl.of_prefix ((List.prefix_append _ _).trans he)).size_le hdoc
              List.nil_prefix
            exact absurd (Nat.lt_of_lt_of_le hid hstart) (Nat.not_lt.mpr hnew)
        | file he₀ hold₀ hnew₀ =>
            have heq := hl.load_inj hdoc he₀ he hold₀ hnew₀ hnew hlt
            obtain ⟨rfl, hload⟩ := List.append_inj' heq rfl
            cases hload
            refine .file he₀ hxold ?_
            rw [after_concat]
            exact hxnew

theorem Known.home (hdoc : (s.mapping? c.document).isSome) (hl : Lawful c s files h)
    (hfiles : ∀ f ∈ files, f.2 = c.document) (hk : Known files h key document) :
    Home c s h document document := by
  rcases List.mem_append.mp hk with hin | hin
  · obtain rfl : document = c.document := hfiles _ hin
    obtain ⟨m, hm⟩ := Option.isSome_iff_exists.mp hdoc
    exact .given rfl (lt_size_of_mapping? hm)
  · obtain ⟨d, hd, hfile⟩ := List.mem_filterMap.mp hin
    cases d with
    | load key' document' read =>
        cases hfile
        obtain ⟨pre, post, rfl⟩ := List.append_of_mem hd
        have he : pre ++ [.load key document read] <+: pre ++ .load key document read :: post :=
          ⟨post, by rw [List.append_assoc, List.singleton_append]⟩
        have hlegit := (hl.of_prefix he).last
        cases hlegit with
        | load hkey hread =>
            obtain ⟨hold, hnew⟩ := (extends_parseFile hread).2.1 document rfl
            refine .file he hold ?_
            rw [after_concat]
            exact hnew
    | _ => cases hfile

theorem IsScope.home (hdoc : (s.mapping? c.document).isSome) (hl : Lawful c s files h)
    (hfiles : ∀ f ∈ files, f.2 = c.document) (hroot : root.document = c.document)
    (hscope : IsScope c root files h scope) : Home c s h scope.document scope.document := by
  rcases hscope with rfl | ⟨d, key, l, rfl, -, hknown⟩
  · obtain ⟨m, hm⟩ := Option.isSome_iff_exists.mp hdoc
    exact .given hroot (hroot ▸ lt_size_of_mapping? hm)
  · exact hknown.home hdoc hl hfiles

-- The walk of a scope stays in its file as long as nothing came in from elsewhere.
theorem Within.home_or_strays (hs : s.WellFormed) (hdoc : (s.mapping? c.document).isSome)
    (hl : Lawful c s files h) (hstart : Home c s h scope.document scope.document)
    (hw : Within c s files h scope id) :
    Home c s h scope.document id ∨ Strays c s files h scope id := by
  induction hw with
  | document => exact .inl hstart
  | lent hkey hlent hf => exact .inr ⟨_, .lent hkey hlent hf, .refl⟩
  | @child b x e hb he hx ih =>
      cases ((hl.of_prefix he).entered hx).mono he with
      | parsed he' hbirth hx' =>
          rcases ih with hhome | ⟨y, hy, hbelow⟩
          · exact .inl (hhome.child hs hdoc hl he' hbirth hx')
          · exact .inr ⟨y, hy, hbelow.child he' hbirth hx'⟩
      | brought he' hd hnew hx' => exact .inr ⟨x, .brought hb he' hd hnew hx', .refl⟩
      | copied he' hnew hx' => exact .inr ⟨x, .copied hb he' hnew hx', .refl⟩

end Homes

section Call

variable {s : Store} {q : Request}

-- The component is the schema that was just inlined under the name.
def Registers (h : History) (kind name : String) (target : NodeId) : Prop :=
  ∃ e node ref, h = e ++ [.inline node target ref (some name)] ∧ kind = "schemas"

-- The component is what a reference of the root document would miss.
def Rescues (q : Request) (s : Store) (h : History) (kind name : String) (target : NodeId) : Prop :=
  ∃ e scope node ref, e <+: h ∧ Encounters q.context q.scope s q.files e scope node ref ∧
    scope.isRoot = true ∧ component? (segments (pointerPart ref)) = some (kind, name) ∧
    Supplies q.context s q.files h kind name target

theorem files_document (q : Request) : ∀ f ∈ q.files, f.2 = q.document := by
  intro f hf
  unfold Request.files at hf
  cases hkey : q.scope.key with
  | none =>
      rw [hkey] at hf
      cases hf
  | some key =>
      rw [hkey] at hf
      cases List.mem_singleton.mp hf
      rfl

-- A reference is looked up from the directory of the file that it was written in, and an internal one
-- of a file is searched for in that file first, unless it strays into the scope of another file.
theorem looked_up_at_home_or_strayed (hs : s.WellFormed) (hdoc : (s.mapping? q.document).isSome) :
    ∃ h, q.HasHistory s h ∧
      (∀ pre node ref base, pre ++ [.look node ref base] <+: h →
        ∃ scope, IsScope q.context q.scope q.files pre scope ∧ scope.base = base ∧
          (Home q.context s pre scope.document node ∨ Strays q.context s q.files pre scope node)) ∧
      ∀ pre kind name target, pre ++ [.bind kind name target] <+: h →
        Registers pre kind name target ∨ Rescues q s pre kind name target ∨
          ∃ scope node ref, Encounters q.context q.scope s q.files pre scope node ref ∧
            scope.isRoot = false ∧ component? (segments (pointerPart ref)) = some (kind, name) ∧
            Offers q.context s q.files pre scope.document kind name target ∧
            (Home q.context s pre scope.document node ∨
              Strays q.context s q.files pre scope node) := by
  obtain ⟨h, hh⟩ := exists_account hdoc
  have placed {pre : History} {scope : Scope} {node : NodeId} (hpre : pre <+: h)
      (hscope : IsScope q.context q.scope q.files pre scope)
      (hwithin : Within q.context s q.files pre scope node) :
      Home q.context s pre scope.document node ∨ Strays q.context s q.files pre scope node := by
    have hl := hh.lawful.of_prefix hpre
    have hstart := hscope.home hdoc hl (files_document q) rfl
    exact hwithin.home_or_strays hs hdoc hl hstart
  refine ⟨h, hh.toHasHistory, fun pre node ref base hpre => ?_, fun pre kind name target hpre => ?_⟩
  · have hbefore : pre <+: h := (List.prefix_append pre _).trans hpre
    cases hh.occasion pre _ hpre with
    | look _ hscope hwithin => exact ⟨_, hscope, rfl, placed hbefore hscope hwithin⟩
    | other hevent _ => exact absurd rfl (hevent node ref base)
  · have hbefore : pre <+: h := (List.prefix_append pre _).trans hpre
    cases hh.occasion pre _ hpre with
    | register hinlined => exact .inl ⟨_, _, _, hinlined, rfl⟩
    | adopt hmet hfile hcomponent _ hoffers =>
        exact .inr (.inr ⟨_, _, _, hmet, hfile, hcomponent, hoffers,
          placed hbefore hmet.isScope hmet.within⟩)
    | rescue he hmet hroot hcomponent hsupplies =>
        exact .inr (.inl ⟨_, _, _, _, he, hmet, hroot, hcomponent, hsupplies⟩)
    | other _ hbind => exact absurd rfl (hbind kind name target)

-- A reference to a component that its file does not have: another file that has one lends it.
def lentLeaf : Store :=
  ⟨#[
    .ofFields [("a", .node 1)],
    .ofFields [("$ref", .str "s/b.json")]]⟩

def lentLeafCall : Request :=
  let empty := FileContent.bytes "\x7b\x7d".toUTF8
  let file := "\x7b\"x\":\x7b\"$ref\":\"../c.json#/components/schemas/T\"\x7d,\"components\":" ++
    "\x7b\"schemas\":\x7b\"T\":\x7b\"p\":\x7b\"$ref\":\"l.json\"\x7d\x7d\x7d\x7d\x7d"
  let folder := Directory.mk [("b.json", .bytes file.toUTF8), ("l.json", empty)] .nil
  ⟨0, some (.text "api.json"), {}, [], [], none,
    ⟨.mk [("c.json", empty), ("l.json", empty)] (.cons "s" folder .nil), ⟨1, []⟩⟩⟩

-- What stands in it is looked up from the directory of the file that borrows it.
theorem lentLeaf_looked_up : ∃ h, lentLeafCall.HasHistory lentLeaf h ∧
    ∃ pre, pre ++ [.look 5 "l.json" (some "/")] <+: h ∧
      ∃ scope, IsScope lentLeafCall.context lentLeafCall.scope lentLeafCall.files pre scope ∧
        scope.base = some "/" ∧
        (Home lentLeafCall.context lentLeaf pre scope.document 5 ∨
          Strays lentLeafCall.context lentLeaf lentLeafCall.files pre scope 5) := by
  obtain ⟨h, hh, hlooks, -⟩ := @looked_up_at_home_or_strayed lentLeaf lentLeafCall (by decide) (by decide)
  have hin : .lookedUp 5 "l.json" (some "/") ∈ (references lentLeaf lentLeafCall).events := by
    decide +kernel
  obtain ⟨pre, hpre⟩ := hh.exists_look hin
  exact ⟨h, hh, pre, hpre, hlooks pre 5 "l.json" (some "/") hpre⟩

end Call

end ApiGraph.Resolve
