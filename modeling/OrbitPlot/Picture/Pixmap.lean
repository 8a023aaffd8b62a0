import OrbitPlot.Picture.Image

/-!
# Portable pixmaps

The file format that images are written in: a header in ASCII with the size, followed by three
bytes for every pixel.
-/

namespace OrbitPlot

namespace Image

/-- The header of the file of an image. -/
def header (image : Image) : String := s!"P6\n{image.width} {image.height} 255\n"

/-- The file of an image. -/
def toPixmap (image : Image) : ByteArray :=
  image.colors.foldl (fun file c ↦ ((file.push c.red).push c.green).push c.blue)
    image.header.toUTF8

end Image

end OrbitPlot
