import AnnotationCodec.Proofs.CommandLine.Options
import AnnotationCodec.Proofs.CommandLine.Printing
import AnnotationCodec.Proofs.Manifest.Refusal

/-!
The program never ends over an annotation that it was asked to write. Every descriptor that arguments make can be
stored, so that writing it fails only at a resource whose metadata or annotations are no map, and such a failure is not
about an annotation.
-/
namespace AnnotationCodec

namespace Schema

variable {s : Schema} {family : Family} {descriptor v : Value} {fs : List (Field × Value)} {e : Failure}

theorem result_storeFields_of_fits (h : ∀ f w, (f, w) ∈ fs → w = .null ∨ w.Fits f.shape) (es : Entries) :
    (s.storeFields fs es).result = .ok () := by
  induction fs generalizing es with
  | nil => rfl
  | cons x fs ih =>
    obtain ⟨f, w⟩ := x
    have hrest : ∀ g u, (g, u) ∈ fs → u = .null ∨ u.Fits g.shape := fun g u hm => h g u (List.mem_cons_of_mem _ hm)
    cases hw : w.isNull with
    | true =>
      rw [storeFields, if_pos hw]
      exact ih hrest es
    | false =>
      rcases h f w List.mem_cons_self with rfl | hfits
      · cases hw
      · obtain ⟨t, ht⟩ := Codec.exists_encode hfits
        rw [storeFields, if_neg (by simp [hw]), (ht (.str (s.key f))).1]
        exact ih hrest _

/-- In what is no map nothing can be set, but what would be set there has a text. -/
theorem storeNowhere_error_of_fits (h : ∀ f w, (f, w) ∈ fs → w = .null ∨ w.Fits f.shape)
    (he : s.storeNowhere fs = .error e) : e = .unsupported := by
  rcases storeNowhere_cases s fs with ⟨hok, -⟩ | ⟨gs, f, w, rest, e', rfl, -, hw, hfails, hcause⟩
  · rw [hok] at he
    cases he
  · rw [hfails] at he
    cases he
    rcases hcause with herror | ⟨-, heq⟩
    · rcases h f w (by simp) with rfl | hfits
      · cases hw
      · obtain ⟨t, ht⟩ := Codec.exists_encode hfits
        rw [(ht (.str (s.key f))).1] at herror
        cases herror
    · exact heq

/-- Storing what fits fails in no map, and elsewhere only because nothing can be set there. -/
theorem store_error_of_fits (h : descriptor.FitsFamily family) (he : (s.store family descriptor v).result = .error e) :
    e = .unsupported := by
  rcases h with ⟨rfl, hfamily⟩ | ⟨c, rfl, hfamily, hfits⟩
  · have hnone : descriptorFor family .null = .ok none := by rw [descriptorFor, if_neg hfamily]
    by_cases hmap : ∃ es, v = .map es
    · obtain ⟨es, rfl⟩ := hmap
      rw [store, storeEntries, hnone] at he
      cases he
    · rw [store_of_none (not_exists.mp hmap) hnone] at he
      cases he
  · have hsome : descriptorFor family (.descriptor c) = .ok (some c) := by rw [descriptorFor, if_pos hfamily]
    have hentries : ∀ f w, (f, w) ∈ c.entries → w = .null ∨ w.Fits f.shape := fun f w hm =>
      hfits f w (Descriptor.mem_entries_iff.mp hm)
    by_cases hmap : ∃ es, v = .map es
    · obtain ⟨es, rfl⟩ := hmap
      rw [store, storeEntries, hsome] at he
      have hok := result_storeFields_of_fits (s := s) hentries es
      simp only [Outcome.map, hok] at he
      cases he
    · rw [store_of_some (not_exists.mp hmap) hsome] at he
      exact storeNowhere_error_of_fits hentries he

end Schema

namespace Manifest

variable {s : Schema} {m : Manifest} {family : Family} {descriptor : Value} {ds : List (Family × Value)} {e : Failure}

/-- Writing what fits fails only at a resource that cannot be opened, or whose annotations are no map. -/
theorem annotate_error_of_fits (h : descriptor.FitsFamily family) (he : (m.annotate s family descriptor).result = .error e) :
    e = .noAttribute ∨ e = .unsupported := by
  rcases updateResources_error he with hopen | ⟨v, hv⟩
  · exact .inl hopen
  · exact .inr (Schema.store_error_of_fits h hv)

end Manifest

namespace Run

variable {α β : Type} {x : Run α} {f : α → Run β}

/-- Whether a computation never asks for the program to end. It may still fail. -/
def NeverExits (x : Run α) : Prop :=
  ∀ code, x.result ≠ .error (.exit code)

theorem neverExits_of_ok {a : α} (h : x.result = .ok a) : x.NeverExits := by
  intro code he
  rw [h] at he
  cases he

theorem neverExits_of_failure {e : Failure} (h : x.result = .error (.failure e)) : x.NeverExits := by
  intro code he
  rw [h] at he
  cases he

theorem neverExits_lift (e : Except Failure α) : (liftM e : Run α).NeverExits := by
  cases e with
  | ok a => exact neverExits_of_ok rfl
  | error e => exact neverExits_of_failure rfl

theorem neverExits_bind (hx : x.NeverExits) (hf : ∀ a, (f a).NeverExits) : (x >>= f).NeverExits := by
  intro code
  cases h : x.result with
  | error s =>
    rw [result_bind_of_error f h]
    exact fun he => hx code (h.trans (congrArg Except.error (Except.error.inj he)))
  | ok a =>
    rw [result_bind_of_ok f h]
    exact hf a code

end Run

theorem Log.neverExits_log (env : Environment) (s : Settings) (l : Level) (words : List Value)
    (attributes : List (Text × Value)) : (log env s l words attributes).NeverExits := by
  have hput (line : Text) : (put env s l line).NeverExits := by
    unfold put
    cases s.hasFile with
    | false => cases s.displays l <;> exact Run.neverExits_of_ok rfl
    | true =>
      cases env.resolve s.path with
      | error e => exact Run.neverExits_of_failure rfl
      | ok name => cases s.displays l <;> exact Run.neverExits_of_ok rfl
  unfold log
  split
  · exact Run.neverExits_of_ok rfl
  · exact Run.neverExits_bind (Run.neverExits_lift _) fun _ => hput _

namespace CommandLine

theorem AnnotateRequest.fitsFamily_descriptors {a : Arguments} {r : AnnotateRequest} (h : Command.Asks a r) :
    ∀ x ∈ r.descriptors, x.2.FitsFamily x.1 := by
  obtain ⟨ws, -, hws, -⟩ := exists_writes h Domain.default
  intro x hx
  rw [← hws] at hx
  obtain ⟨w, -, rfl⟩ := List.mem_map.mp hx
  exact w.fits

namespace Command

variable {src : Sources} {args : List Text} {c : Command} {r : AnnotateRequest}

/-- Whatever arguments make a request to annotate, each field is asked for by its options. -/
theorem asks_of_request (h : request src c args = .ok (.annotate r)) : ∃ a, Asks a r := by
  obtain ⟨a, -, h⟩ := bind_eq_ok_iff.mp h
  have hof : ofArguments src c a = .ok (.annotate r) := by
    cases hr : ofArguments src c a with
    | error e =>
      rw [hr] at h
      cases h
    | ok request =>
      rw [hr] at h
      exact congrArg Except.ok (Except.ok.inj h)
  cases c with
  | annotate => exact ⟨a, asks_of_ofArguments hof⟩
  | get =>
    obtain ⟨t, -, ht⟩ := map_eq_ok_iff.mp hof
    cases ht
  | keys =>
    obtain ⟨u, -, hu⟩ := map_eq_ok_iff.mp hof
    cases hu

end Command

namespace Workplace

variable {w : Workplace} {ds : List (Family × Value)}

theorem neverExits_annotateWith (h : ∀ x ∈ ds, x.2.FitsFamily x.1) (m : Manifest) : (w.annotateWith ds m).NeverExits := by
  induction ds generalizing m with
  | nil => exact Run.neverExits_of_ok rfl
  | cons x ds ih =>
    obtain ⟨family, d⟩ := x
    rw [List.forall_mem_cons] at h
    unfold annotateWith
    dsimp only
    split
    · next e he =>
      -- The failure is a general one, which does not end the program.
      rcases Manifest.annotate_error_of_fits h.1 he with rfl | rfl
      · exact Run.neverExits_of_failure rfl
      · exact Run.neverExits_of_failure rfl
    · exact Run.neverExits_bind (Log.neverExits_log _ _ _ _ _) fun _ => ih h.2 _

theorem neverExits_annotateAll (h : ∀ x ∈ ds, x.2.FitsFamily x.1) (ms : List Manifest) :
    (w.annotateAll ds ms).NeverExits := by
  induction ms with
  | nil => exact Run.neverExits_of_ok rfl
  | cons m ms ih =>
    exact Run.neverExits_bind (Run.neverExits_lift _) fun _ => Run.neverExits_bind (Log.neverExits_log _ _ _ _ _) fun _ =>
      Run.neverExits_bind (neverExits_annotateWith h m) fun _ => Run.neverExits_bind ih fun _ =>
        Run.neverExits_of_ok rfl

end Workplace

theorem neverExits_carryOut {a : Arguments} {r : AnnotateRequest} (h : Command.Asks a r) (w : Workplace) :
    (carryOut w (.annotate r)).NeverExits := by
  rw [carryOut_annotate]
  refine Run.neverExits_bind (Run.neverExits_bind ?_ fun ms => ?_) fun ms => ?_
  · exact Run.neverExits_bind (Run.neverExits_lift _) fun _ => Run.neverExits_bind (Log.neverExits_log _ _ _ _ _) fun _ =>
      Run.neverExits_of_ok rfl
  · exact Workplace.neverExits_annotateAll (AnnotateRequest.fitsFamily_descriptors h) ms
  · exact Run.neverExits_bind (Run.neverExits_of_ok rfl) fun _ => Run.neverExits_lift _

variable {src : Sources} {args : List Text} {r : AnnotateRequest}

theorem eq_ok_of_accept {α : Type} {f : Form} {asked : Except Refusal α} {a : α}
    (h : (accept f asked).result = .ok a) : asked = .ok a := by
  cases asked with
  | ok b => exact congrArg Except.ok (Except.ok.inj h)
  | error e => cases e <;> cases h

/-- A program that is asked to annotate does not end itself once it knows what is asked for. -/
theorem neverExits_run {s : Start} {w : Workplace} (h : (prepare s).result = .ok (w, .annotate r)) : (run s).NeverExits := by
  intro code
  rw [run_eq, Run.result_bind_of_ok _ h]
  simp only [prepare, Run.result_bind_eq_ok_iff] at h
  obtain ⟨front, -, -, -, request, hrequest, schema, -, hr⟩ := h
  obtain ⟨-, rfl⟩ := Prod.mk.inj (Except.ok.inj hr)
  obtain ⟨a, ha⟩ := Command.asks_of_request (eq_ok_of_accept hrequest)
  exact neverExits_carryOut ha w code

/-- Whatever arguments make a request to annotate, each of its descriptors can be written to a manifest of any form, under
any keys, without a failure about an annotation: it fails only where the metadata or the annotations of a resource are no
map. So carrying out the request never ends the program, unless by a general failure. -/
theorem annotate_never_exits (h : Command.request src .annotate args = .ok (.annotate r)) :
    (∀ (s : Schema) (m : Manifest), ∀ x ∈ r.descriptors, ∀ e, (m.annotate s x.1 x.2).result = .error e →
      (e = .noAttribute ∨ e = .unsupported) ∧ e.isAboutAnnotation = false) ∧
    ∀ w : Workplace, (carryOut w (.annotate r)).NeverExits := by
  obtain ⟨a, ha⟩ := Command.asks_of_request h
  refine ⟨fun s m x hx e he => ?_, neverExits_carryOut ha⟩
  have hcause := Manifest.annotate_error_of_fits (AnnotateRequest.fitsFamily_descriptors ha x hx) he
  refine ⟨hcause, ?_⟩
  rcases hcause with rfl | rfl <;> rfl

/-- An integer of two digits that are not ASCII, and a part of an artifact and a load balancer that are empty. -/
theorem annotate_never_exits_odd_options :
    let gs : List (Field × Text) := [(.sequence, text " -٠٧"), (.app, []), (.loadBalancers, []), (.type, []),
      (.name, text "n"), (.loadBalancers, text "b")]
    let broken : Manifest := .ofEntries [(.str (text "metadata"), .list [])]
    ∃ r, Command.request ⟨⟨[], []⟩, []⟩ .annotate (wordsOf gs ++ [text "-"]) = .ok (.annotate r) ∧
      r.sequence = some (-7) ∧ r.loadBalancers = [[], text "b"] ∧
      (carryOut Workplace.quietPlace (.annotate r)).NeverExits ∧
      ∀ x ∈ r.descriptors, ∀ e, (broken.annotate .default x.1 x.2).result = .error e →
        e.isAboutAnnotation = false := by
  intro gs broken
  have hsequence : ∀ u, (argumentsOf gs (text "-")).operand? "--sequence" = some u → ∃ n, Integer.read 10 u = .ok n := by
    intro u hu
    cases hu
    exact ⟨-7, rfl⟩
  have hrequest : ∃ r, Command.request ⟨⟨[], []⟩, []⟩ .annotate (wordsOf gs ++ [text "-"]) = .ok (.annotate r) ∧
      Command.ofArguments ⟨⟨[], []⟩, []⟩ .annotate (argumentsOf gs (text "-")) = .ok (.annotate r) ∧ r.manifests = [] :=
    exists_request (by decide) (by decide) rfl hsequence
  obtain ⟨r, hr, hof, -⟩ := hrequest
  have ha := Command.asks_of_ofArguments hof
  have h := annotate_never_exits hr
  exact ⟨r, hr, Except.ok.inj (ha.sequence.symm.trans rfl), ha.loadBalancers, h.2 _, fun x hx e he =>
    (h.1 _ _ x hx e he).2⟩

end CommandLine

end AnnotationCodec
