import Stencil.Files.Path
import Stencil.Script.Text
import Stencil.Style.Sheet
import Stencil.Template.Module
import Stencil.Template.Reading

/-! From the source of a template to its style sheet and its code. -/
namespace Stencil

/-- Names that are empty are made from the file name. -/
structure Options where
  blockName : String := ""
  amd : Bool := false
  amdName : String := ""
  autoLoadCss : Bool := false
  cssVars : Values := []
  indent : Int := 0
deriving DecidableEq, Repr

structure Output where
  css : ByteArray
  js : String
  template : Template

/-- The file name without directory and extension. -/
def defaultBlockName (file : String) : String :=
  if file.isEmpty then "" else Path.stem (Path.base file)

namespace Options

def blockNameFor (o : Options) (file : String) : String :=
  if o.blockName.isEmpty then defaultBlockName file else o.blockName

def moduleNameFor (o : Options) (file : String) : String :=
  if o.amdName.isEmpty then Path.stem file else o.amdName

end Options

namespace Template

/-- The style sheet, scoped to the block if it has a name. -/
def stylesFor (o : Options) (file : String) (t : Template) : ByteArray :=
  let name := o.blockNameFor file
  (if name.isEmpty then t else t.scopedTo name).styleText o.cssVars

def codeFor (o : Options) (file : String) (t : Template) : Script.Code :=
  let code := t.lower ⟨o.blockNameFor file, t.bareElements⟩
  let code :=
    if o.autoLoadCss then Script.Code.withStyle (Text.decode (t.stylesFor o file)) code else code
  if o.amd then Script.Code.asModule t (o.moduleNameFor file) code else code

def output (o : Options) (file : String) (t : Template) : Output :=
  ⟨t.stylesFor o file, Script.Code.text o.indent (t.codeFor o file), t⟩

end Template

def compile (file source : String) (o : Options) : Except Fault Output :=
  (Template.read file source).map (Template.output o file)

end Stencil
